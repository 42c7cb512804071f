import SigilExpr.Eval.Perform

/-!
# How a run plays out

A run plays out as a row of exchanges: what it asks for, and what a helper replies to it where it
calls one. Reads are answered by the context. The replies are arbitrary, so that a run plays out in
as many ways as helpers may reply. Performing it in a world is the one way in which each call is
answered by the helper that has the name there, which is looked up and does what it does once.
-/

set_option autoImplicit false

namespace SigilExpr

/-- A read of the context, or a call of a helper and its reply. -/
inductive Exchange where
  | read (name : String)
  | readRoot
  | call (name : String) (args : List Value) (reply : Reply)

def Exchange.reply? : Exchange → Option Reply
  | .call _ _ reply => some reply
  | _ => none

namespace World

/-- What a call of a helper comes to. A helper that is missing leaves the world as it is. What one
that is found does is done once: its value is the reply, and its error is kept in the reply. -/
inductive Answers (w : World) (name : String) (args : List Value) : Reply → World → Prop where
  | missing (hfind : w.registry.find? name = none) : w.Answers name args (.error .missing) w
  | value {h : Helper} {v : Value} {w' : World} (hfind : w.registry.find? name = some h)
      (hbody : (h.body args).perform invoke w = (.ok v, w')) : w.Answers name args (.ok v) w'
  | error {h : Helper} {cause : HelperError} {w' : World} (hfind : w.registry.find? name = some h)
      (hbody : (h.body args).perform invoke w = (.error cause, w')) :
      w.Answers name args (.error (.failed cause)) w'

theorem answers_iff {w w' : World} {name : String} {args : List Value} {reply : Reply} :
    w.Answers name args reply w' ↔ w.call name args = (reply, w') := by
  constructor
  · intro h
    cases h with
    | missing hfind => simp only [call, hfind]
    | value hfind hbody => simp only [call, hfind, hbody]
    | error hfind hbody => simp only [call, hfind, hbody]
  · intro h
    unfold call at h
    split at h
    · next hfind =>
      cases h
      exact .missing hfind
    · next helper hfind =>
      split at h
      · next hbody =>
        cases h
        exact .value hfind hbody
      · next hbody =>
        cases h
        exact .error hfind hbody

theorem Answers.unique {w v v' : World} {name : String} {args : List Value} {reply reply' : Reply}
    (h : w.Answers name args reply v) (h' : w.Answers name args reply' v') :
    reply = reply' ∧ v = v' :=
  Prod.mk.inj ((answers_iff.1 h).symm.trans (answers_iff.1 h'))

/-- The exchanges take a world to another: reads are noted, and calls are answered by helpers. -/
inductive Undergoes : World → List Exchange → World → Prop where
  | nil (w : World) : Undergoes w [] w
  | read {w w' : World} {name : String} {es : List Exchange} :
      Undergoes (w.note (.read name)) es w' → Undergoes w (.read name :: es) w'
  | readRoot {w w' : World} {es : List Exchange} :
      Undergoes (w.note .readRoot) es w' → Undergoes w (.readRoot :: es) w'
  | call {w v w' : World} {name : String} {args : List Value} {reply : Reply}
      {es : List Exchange} : w.Answers name args reply v → Undergoes v es w' →
      Undergoes w (.call name args reply :: es) w'

end World

namespace Run

variable {α β : Type} {context : Context}

/-- With these exchanges the run comes to its end, and that is the result. -/
inductive Plays (context : Context) : Run α → List Exchange → Except RuntimeError α → Prop where
  | done (x : Except RuntimeError α) : Plays context (.done x) [] x
  | read {name next es x} : Plays context (next (context.get name)) es x →
      Plays context (.read name next) (.read name :: es) x
  | readRoot {next es x} : Plays context (next context.root) es x →
      Plays context (.readRoot next) (.readRoot :: es) x
  | call {name args next es x} (reply : Reply) : Plays context (next reply) es x →
      Plays context (.call name args next) (.call name args reply :: es) x

/-- The exchanges of a run that is performed in a world. -/
def exchanges (context : Context) : Run α → World → List Exchange
  | .done _, _ => []
  | .read name next, w =>
    .read name :: (next (context.get name)).exchanges context (w.note (.read name))
  | .readRoot next, w => .readRoot :: (next context.root).exchanges context (w.note .readRoot)
  | .call name args next, w =>
    let (reply, w) := w.call name args
    .call name args reply :: (next reply).exchanges context w

/-- The run is performed so in a world: it plays out with the replies of the helpers there. -/
structure PerformedAs (context : Context) (r : Run α) (w : World) (es : List Exchange)
    (x : Except RuntimeError α) (w' : World) : Prop where
  plays : r.Plays context es x
  undergoes : w.Undergoes es w'

theorem performedAs (context : Context) (r : Run α) (w : World) :
    r.PerformedAs context w (r.exchanges context w) (r.perform context w).1
      (r.perform context w).2 := by
  induction r generalizing w with
  | done x => exact ⟨.done x, .nil w⟩
  | read name next ih =>
    obtain ⟨hplays, hundergoes⟩ := ih (context.get name) (w.note (.read name))
    exact ⟨.read hplays, .read hundergoes⟩
  | readRoot next ih =>
    obtain ⟨hplays, hundergoes⟩ := ih context.root (w.note .readRoot)
    exact ⟨.readRoot hplays, .readRoot hundergoes⟩
  | call name args next ih =>
    obtain ⟨hplays, hundergoes⟩ := ih (w.call name args).1 (w.call name args).2
    exact ⟨.call _ hplays, .call (World.answers_iff.2 rfl) hundergoes⟩

/-- Replies that come from the helpers leave just one way for the run to play out. -/
theorem PerformedAs.unique {r : Run α} {w w' w'' : World} {es fs : List Exchange}
    {x y : Except RuntimeError α} (h : r.PerformedAs context w es x w')
    (h' : r.PerformedAs context w fs y w'') : es = fs ∧ x = y ∧ w' = w'' := by
  obtain ⟨hplays, hundergoes⟩ := h
  obtain ⟨hplays', hundergoes'⟩ := h'
  induction hplays generalizing w fs with
  | done x =>
    cases hplays'
    cases hundergoes
    cases hundergoes'
    exact ⟨rfl, rfl, rfl⟩
  | read _ ih =>
    cases hplays' with
    | read hplays' =>
      cases hundergoes with
      | read hundergoes =>
        cases hundergoes' with
        | read hundergoes' =>
          obtain ⟨rfl, hends⟩ := ih hundergoes hplays' hundergoes'
          exact ⟨rfl, hends⟩
  | readRoot _ ih =>
    cases hplays' with
    | readRoot hplays' =>
      cases hundergoes with
      | readRoot hundergoes =>
        cases hundergoes' with
        | readRoot hundergoes' =>
          obtain ⟨rfl, hends⟩ := ih hundergoes hplays' hundergoes'
          exact ⟨rfl, hends⟩
  | call reply _ ih =>
    cases hplays' with
    | call reply' hplays' =>
      cases hundergoes with
      | call hanswers hundergoes =>
        cases hundergoes' with
        | call hanswers' hundergoes' =>
          obtain ⟨rfl, rfl⟩ := hanswers.unique hanswers'
          obtain ⟨rfl, hends⟩ := ih hundergoes hplays' hundergoes'
          exact ⟨rfl, hends⟩

theorem performedAs_iff {r : Run α} {w w' : World} {es : List Exchange}
    {x : Except RuntimeError α} :
    r.PerformedAs context w es x w' ↔
      r.exchanges context w = es ∧ r.perform context w = (x, w') := by
  constructor
  · intro h
    obtain ⟨hes, hx, hw⟩ := (r.performedAs context w).unique h
    exact ⟨hes, Prod.ext hx hw⟩
  · rintro ⟨rfl, h⟩
    have hperformed := r.performedAs context w
    rwa [h] at hperformed

/-- Where a run that goes on with a value ends: in an error of the first part, or after it. -/
theorem Plays.of_bind {r : Run α} {f : α → Run β} {es : List Exchange} {x : Except RuntimeError β}
    (h : (r >>= f).Plays context es x) :
    (∃ error, r.Plays context es (.error error) ∧ x = .error error) ∨
      ∃ a before after, es = before ++ after ∧ r.Plays context before (.ok a) ∧
        (f a).Plays context after x := by
  induction r generalizing es with
  | done y =>
    rcases y with error | a
    · cases h
      exact .inl ⟨error, .done _, rfl⟩
    · exact .inr ⟨a, [], es, rfl, .done _, h⟩
  | read name next ih =>
    cases h with
    | read h =>
      rcases ih _ h with ⟨error, hend, rfl⟩ | ⟨a, before, after, rfl, hfirst, hrest⟩
      · exact .inl ⟨error, .read hend, rfl⟩
      · exact .inr ⟨a, _, after, rfl, .read hfirst, hrest⟩
  | readRoot next ih =>
    cases h with
    | readRoot h =>
      rcases ih _ h with ⟨error, hend, rfl⟩ | ⟨a, before, after, rfl, hfirst, hrest⟩
      · exact .inl ⟨error, .readRoot hend, rfl⟩
      · exact .inr ⟨a, _, after, rfl, .readRoot hfirst, hrest⟩
  | call name args next ih =>
    cases h with
    | call reply h =>
      rcases ih _ h with ⟨error, hend, rfl⟩ | ⟨a, before, after, rfl, hfirst, hrest⟩
      · exact .inl ⟨error, .call reply hend, rfl⟩
      · exact .inr ⟨a, _, after, rfl, .call reply hfirst, hrest⟩

/-- Two ways in which a run plays out ask for the same up to the first call that is answered
differently. -/
theorem Plays.exists_append {r : Run α} {before after fs : List Exchange} {name : String}
    {args : List Value} {reply : Reply} {x y : Except RuntimeError α}
    (h : r.Plays context (before ++ .call name args reply :: after) x)
    (h' : r.Plays context fs y)
    (halike : before.filterMap Exchange.reply? <+: fs.filterMap Exchange.reply?) :
    ∃ reply' after', fs = before ++ .call name args reply' :: after' := by
  induction before generalizing r fs with
  | nil =>
    cases h with
    | call _ _ =>
      cases h' with
      | @call _ _ _ fs' _ reply' _ => exact ⟨reply', fs', rfl⟩
  | cons e before ih =>
    cases h with
    | read h =>
      cases h' with
      | read h' =>
        obtain ⟨reply', after', rfl⟩ := ih h h' halike
        exact ⟨reply', after', rfl⟩
    | readRoot h =>
      cases h' with
      | readRoot h' =>
        obtain ⟨reply', after', rfl⟩ := ih h h' halike
        exact ⟨reply', after', rfl⟩
    | call given h =>
      cases h' with
      | call given' h' =>
        obtain ⟨rfl, hrest⟩ := List.cons_prefix_cons.1 halike
        obtain ⟨reply', after', rfl⟩ := ih h h' hrest
        exact ⟨reply', after', rfl⟩

end Run

end SigilExpr
