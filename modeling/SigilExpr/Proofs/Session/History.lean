import SigilExpr.Proofs.Engine.Kept
import SigilExpr.Session

/-!
# Histories of sessions

A command creates an engine or does a step on one, and a history is a list of commands. What a
command can do to a session is said once: `Follows` covers a step on an engine and `Creates` the
creation of one. Registries only grow, engines keep their numbers, registries and options, and an
engine that was replaced does NOT come back.
-/

set_option autoImplicit false

namespace SigilExpr

theorem Compiled.run_extends (c : Compiled) (context : Context) :
    World.Extends (c.run context) := by
  intro w
  have hextends := c.root.run.perform_extends context w
  unfold run
  split
  · next heq => simpa only [heq] using hextends
  · next heq => simpa only [heq] using hextends

theorem Compiled.run_grows (c : Compiled) (context : Context) : World.Grows (c.run context) :=
  (c.run_extends context).grows

theorem Engine.runSource_extends (e : Engine) (source : String) (context : Context) (w : World) :
    w.registry.ExtendsTo (e.runSource source context w).2.1.registry := by
  unfold runSource
  split
  · exact .refl
  · next shared _ _ =>
    have hextends := shared.compiled.run_extends context w
    split
    · next heq => simpa only [heq] using hextends
    · next heq => simpa only [heq] using hextends

theorem Engine.runSource_grows (e : Engine) (source : String) (context : Context) (w : World) :
    w.registry.GrowsTo (e.runSource source context w).2.1.registry :=
  (e.runSource_extends source context w).growsTo

theorem Engine.runSource_continues (e : Engine) (source : String) (context : Context)
    (w : World) : Continues w.registry e (e.runSource source context w).2.2 := by
  have hobtain := e.obtain_continues w.registry source
  unfold runSource
  split
  · next heq => simpa only [heq] using hobtain
  · next heq =>
    rw [heq] at hobtain
    split <;> exact hobtain

namespace Session

/-- What a host may do: create an engine under a name, or do a step on the engine of a name. -/
inductive Command where
  | create (id : String) (source : RegistrySource) (options : Option Value)
  | act (id : String) (action : Step)

/-- Does a command: its outcome, its events, and the session after it. -/
def perform [CallStack] (s : Session) : Command → Outcome × List Event × Session
  | .create id source options =>
    let (outcome, s) := s.create id source options
    (outcome, [], s)
  | .act id action => s.step id action

/-- The session after a history. -/
def after [CallStack] (s : Session) : List Command → Session
  | [] => s
  | c :: cs => (s.perform c).2.2.after cs

theorem after_append [CallStack] (s : Session) (history later : List Command) :
    s.after (history ++ later) = (s.after history).after later := by
  induction history generalizing s with
  | nil => rfl
  | cons c history ih => exact ih (s.perform c).2.2

def engine? (s : Session) (id : String) : Option HostedEngine := NameMap.find? id s.engines

variable {s t : Session} {id : String} {e : HostedEngine}

/-- To put a registry in the place of another relates each registry to the one in its place. -/
theorem registry_setRegistry {related : Registry → Registry → Prop} (hrefl : ∀ r, related r r)
    {number : Nat} {r : Registry} (h : related (s.registry number) r) (n : Nat) :
    related (s.registry n) ((s.setRegistry number r).registry n) := by
  unfold registry setRegistry at *
  dsimp only
  rw [List.getElem?_set]
  split
  · next heq =>
    subst heq
    split
    · exact h
    · next hlen =>
      rw [List.getElem?_eq_none (Nat.le_of_not_lt hlen)]
      exact hrefl _
  · exact hrefl _

/-- What a step on the engine of a name can do to a session. -/
structure Follows (s : Session) (id : String) (e : HostedEngine) (t : Session) : Prop where
  registry : ∀ n, (s.registry n).GrowsTo (t.registry n)
  engineCount : t.engineCount = s.engineCount
  engines : ∃ engine, e.engine.Continues (s.registry e.registry) engine ∧
    ∀ id', t.engine? id' = if id' = id then some { e with engine } else s.engine? id'

namespace Follows

theorem refl (he : s.engine? id = some e) : s.Follows id e s := by
  refine ⟨fun n => .refl _, rfl, e.engine, .refl _ _, ?_⟩
  intro id'
  split
  · next h => exact h ▸ he
  · rfl

theorem setRegistry (h : s.Follows id e t) {number : Nat} {r : Registry}
    (hr : (t.registry number).GrowsTo r) : s.Follows id e (t.setRegistry number r) where
  registry := fun n => (h.registry n).trans (registry_setRegistry .refl hr n)
  engineCount := h.engineCount
  engines := h.engines

theorem setSlot (h : s.Follows id e t) (slot : String) (shared : Shared) :
    s.Follows id e (t.setSlot slot shared) := ⟨h.registry, h.engineCount, h.engines⟩

theorem setEngine {engine : Engine} (h : e.engine.Continues (s.registry e.registry) engine) :
    s.Follows id e (s.setEngine id { e with engine }) := by
  refine ⟨fun n => .refl _, rfl, engine, h, ?_⟩
  intro id'
  unfold engine? Session.setEngine
  split
  · next heq => rw [heq, NameMap.find?_insert_self]
  · next hne => rw [NameMap.find?_insert_of_ne hne]

theorem settle (he : s.engine? id = some e) {number : Nat} (outcome : Registry → Outcome)
    {result : Except RegistryError Registry}
    (h : ∀ r, result = .ok r → (s.registry number).GrowsTo r) :
    s.Follows id e (s.settle number outcome result).2.2 := by
  cases result with
  | ok r => exact (refl he).setRegistry (h r rfl)
  | error error => exact refl he

theorem conclude (h : s.Follows id e t) {number : Nat} {w : World}
    (hw : (t.registry number).GrowsTo w.registry) (outcome : Outcome) :
    s.Follows id e (t.conclude number outcome w).2.2 := h.setRegistry hw

end Follows

theorem stepOn_follows [CallStack] (he : s.engine? id = some e) (action : Step) :
    s.Follows id e (s.stepOn id e action).2.2 := by
  cases action with
  | register name helper => exact .settle he _ fun r hr => .register hr
  | add helper => exact .settle he _ fun r hr => .add hr
  | «alias» name target =>
    rw [stepOn]
    split
    · exact .refl he
    · exact .settle he _ fun r hr => .register hr
  | inspect names => exact .refl he
  | invoke name args =>
    have hgrows := World.invoke_grows name args ⟨s.registry e.registry, []⟩
    rw [stepOn]
    split
    · next heq => exact (Follows.refl he).conclude (by simpa only [heq] using hgrows) _
    · next heq => exact (Follows.refl he).conclude (by simpa only [heq] using hgrows) _
  | compile source slot =>
    rw [stepOn]
    split
    · exact .refl he
    · next c _ => exact (Follows.setEngine (.make _ e.engine c)).setSlot slot _
  | obtain source slot =>
    have hcont := e.engine.obtain_continues (s.registry e.registry) source
    rw [stepOn]
    split
    · next heq => exact .setEngine (by simpa only [heq] using hcont)
    · next heq => exact (Follows.setEngine (by simpa only [heq] using hcont)).setSlot slot _
  | runSlot slot context =>
    rw [stepOn]
    split
    · exact .refl he
    · next shared _ =>
      have hgrows := shared.compiled.run_grows context ⟨s.registry e.registry, []⟩
      split
      · next heq => exact (Follows.refl he).conclude (by simpa only [heq] using hgrows) _
      · next heq => exact (Follows.refl he).conclude (by simpa only [heq] using hgrows) _
  | runSource source context =>
    have hcont := e.engine.runSource_continues source context ⟨s.registry e.registry, []⟩
    have hgrows := e.engine.runSource_grows source context ⟨s.registry e.registry, []⟩
    rw [stepOn]
    split
    all_goals
      next heq =>
        rw [heq] at hcont hgrows
        exact (Follows.setEngine hcont).conclude hgrows _
  | forget => exact .setEngine (.forget _ e.engine)
  | wait => exact .refl he

/-- What the creation of an engine under a name can do to a session. -/
structure Creates (s : Session) (id : String) (t : Session) : Prop where
  registry : ∀ n, (s.registry n).GrowsTo (t.registry n)
  engineCount : t.engineCount = s.engineCount + 1
  engines : ∃ e : HostedEngine, e.engine.number = s.engineCount ∧ e.engine.kept = [] ∧
    ∀ id', t.engine? id' = if id' = id then some e else s.engine? id'

theorem registry_append_grows (s : Session) (r : Registry) (n : Nat) :
    (s.registry n).GrowsTo (((s.registries ++ [r])[n]?).getD .empty) := by
  by_cases h : n < s.registries.length
  · rw [List.getElem?_append_left h]
    exact .refl _
  · rw [registry, List.getElem?_eq_none (Nat.le_of_not_lt h)]
    exact .of_empty _

theorem provide_grows {source : RegistrySource} {number : Nat} {registries : List Registry}
    (h : s.provide source = some (number, registries)) (n : Nat) :
    (s.registry n).GrowsTo ((registries[n]?).getD .empty) := by
  cases source with
  | standard | empty =>
    cases h
    exact registry_append_grows s _ n
  | copyOf id' =>
    obtain ⟨e', -, h⟩ := Option.bind_eq_some_iff.1 h
    cases h
    exact registry_append_grows s _ n
  | sharedWith id' =>
    obtain ⟨e', -, h⟩ := Option.bind_eq_some_iff.1 h
    cases h
    exact .refl _

theorem Creates.of_provide {source : RegistrySource} {number : Nat} {registries : List Registry}
    (h : s.provide source = some (number, registries)) (options : Engine.Options) :
    s.Creates id ({ s with registries, engineCount := s.engineCount + 1 }.setEngine id
      ⟨number, { number := s.engineCount, options }⟩) := by
  let e : HostedEngine := ⟨number, { number := s.engineCount, options }⟩
  refine ⟨provide_grows h, rfl, e, rfl, rfl, ?_⟩
  intro id'
  unfold engine? Session.setEngine
  split
  · next heq => rw [heq, NameMap.find?_insert_self]
  · next hne => rw [NameMap.find?_insert_of_ne hne]

/-- What a command can do to a session. -/
inductive Moves (s : Session) : Session → Prop where
  | stays : s.Moves s
  | follows {id : String} {e : HostedEngine} {t : Session} (he : s.engine? id = some e)
      (h : s.Follows id e t) : s.Moves t
  | creates {id : String} {t : Session} (h : s.Creates id t) : s.Moves t

theorem create_cases (s : Session) (id : String) (source : RegistrySource)
    (options : Option Value) :
    (s.create id source options).2 = s ∨ s.Creates id (s.create id source options).2 := by
  unfold create
  split
  · exact .inl rfl
  · next options _ =>
    split
    · exact .inl rfl
    · next hprovide => exact .inr (Creates.of_provide hprovide options)

theorem create_moves (s : Session) (id : String) (source : RegistrySource)
    (options : Option Value) : s.Moves (s.create id source options).2 := by
  rcases s.create_cases id source options with heq | hcreates
  · rw [heq]
    exact .stays
  · exact .creates hcreates

theorem perform_moves [CallStack] (s : Session) (c : Command) : s.Moves (s.perform c).2.2 := by
  cases c with
  | create id source options => exact s.create_moves id source options
  | act id action =>
    rw [perform, step]
    split
    · exact .stays
    · next e he => exact .follows he (stepOn_follows he action)

/-- What no command spoils holds after every history. -/
theorem after_induction [CallStack] {P : Session → Prop} (hP : ∀ ⦃s t⦄, P s → s.Moves t → P t)
    (hs : P s) (cs : List Command) : P (s.after cs) := by
  induction cs generalizing s with
  | nil => exact hs
  | cons c cs ih => exact ih (hP hs (s.perform_moves c))

theorem Moves.registry_grows (h : s.Moves t) (n : Nat) :
    (s.registry n).GrowsTo (t.registry n) := by
  cases h with
  | stays => exact .refl _
  | follows _ h => exact h.registry n
  | creates h => exact h.registry n

theorem registry_grows_after [CallStack] (s : Session) (cs : List Command) (n : Nat) :
    (s.registry n).GrowsTo ((s.after cs).registry n) :=
  after_induction (P := fun t => (s.registry n).GrowsTo (t.registry n))
    (fun _ _ h hmoves => h.trans (hmoves.registry_grows n)) (.refl _) cs

/-- No engine but `e` itself has the number of `e`, now or later. -/
structure Knows (s : Session) (e : HostedEngine) : Prop where
  number_lt : e.engine.number < s.engineCount
  same : ∀ ⦃id e'⦄, s.engine? id = some e' → e'.engine.number = e.engine.number →
    e'.registry = e.registry ∧ e'.engine.options = e.engine.options

theorem Knows.moves (h : s.Knows e) (hmoves : s.Moves t) : t.Knows e := by
  cases hmoves with
  | stays => exact h
  | @follows id f _ hf hfollows =>
    obtain ⟨engine, hcont, hengines⟩ := hfollows.engines
    refine ⟨hfollows.engineCount ▸ h.number_lt, ?_⟩
    intro id' e' he' hnumber
    rw [hengines id'] at he'
    split at he'
    · obtain rfl := Option.some.inj he'
      obtain ⟨hregistry, hoptions⟩ := h.same hf (hcont.number.symm.trans hnumber)
      exact ⟨hregistry, hcont.options.trans hoptions⟩
    · exact h.same he' hnumber
  | @creates id _ hcreates =>
    obtain ⟨f, hnew, -, hengines⟩ := hcreates.engines
    have hlt := h.number_lt
    refine ⟨by rw [hcreates.engineCount]; omega, ?_⟩
    intro id' e' he' hnumber
    rw [hengines id'] at he'
    split at he'
    · obtain rfl := Option.some.inj he'
      omega
    · exact h.same he' hnumber

theorem Knows.after [CallStack] (h : s.Knows e) (cs : List Command) : (s.after cs).Knows e :=
  after_induction (P := fun t => t.Knows e) (fun _ _ h hmoves => h.moves hmoves) h cs

end Session

end SigilExpr
