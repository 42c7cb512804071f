import SigilExpr.Proofs.Session.Keeping

/-!
# Obtaining is compiling

In every session that a history leads to, obtaining a source from an engine gives what compiling it
there gives. From this it follows step by step that two histories which differ only in the options
to keep what is compiled have the same outcomes and the same events.
-/

set_option autoImplicit false

namespace SigilExpr

namespace Session

variable {s t : Session} {id : String} {e f : HostedEngine}

/-- By cases of the step. Only a source that is obtained or run looks at what is kept, and there
the two engines compile it to the same. -/
theorem stepOn_alike [CallStack] (h : s.Alike t) (hterms : e.terms = f.terms)
    (he : e.engine.Fresh (s.registry e.registry)) (hf : f.engine.Fresh (t.registry f.registry))
    (action : Step) : AlikeAnswers (s.stepOn id e action) (t.stepOn id f action) := by
  obtain ⟨n, e⟩ := e
  obtain ⟨m, f⟩ := f
  obtain rfl : n = m := congrArg Prod.fst hterms
  have hlimits : e.options.limits = f.options.limits := congrArg Prod.snd hterms
  have hreg : s.registry n = t.registry n := h.registry_eq n
  have hcompile : ∀ source, e.compile (t.registry n) source = f.compile (t.registry n) source :=
    fun source => Engine.compile_eq_of_limits hlimits _ source
  dsimp only at he hf
  rw [hreg] at he
  -- the engines that go on are compared by their terms, which making and forgetting keep
  have hset : ∀ e' f' : Engine, e'.options = e.options → f'.options = f.options →
      (s.setEngine id ⟨n, e'⟩).Alike (t.setEngine id ⟨n, f'⟩) := by
    intro e' f' he' hf'
    refine h.setEngine id ?_
    rw [HostedEngine.terms, HostedEngine.terms, he', hf', hlimits]
  cases action with
  | register name helper =>
    simp only [stepOn, hreg]
    exact h.settle n _ _
  | add helper =>
    simp only [stepOn, hreg]
    exact h.settle n _ _
  | «alias» name target =>
    simp only [stepOn, hreg]
    split
    · exact ⟨rfl, rfl, h⟩
    · exact h.settle n _ _
  | inspect names =>
    simp only [stepOn, hreg]
    exact ⟨rfl, rfl, h⟩
  | invoke name args =>
    simp only [stepOn, hreg]
    split
    · exact h.conclude n _ _
    · exact h.conclude n _ _
  | compile source slot =>
    simp only [stepOn, hreg, hcompile]
    split
    · exact ⟨rfl, rfl, h⟩
    · next c _ =>
      have hmade := hset (e.make c).2 (f.make c).2 rfl rfl
      have hslot : (e.make c).1.compiled = (f.make c).1.compiled := rfl
      refine ⟨?_, rfl, hmade.setSlot slot hslot⟩
      exact congrArg (Outcome.compiled c) (h.slotsWith_eq fun d => d.same c)
  | obtain source slot =>
    have hgot : (e.obtain (t.registry n) source).1.map Shared.compiled =
        (f.obtain (t.registry n) source).1.map Shared.compiled := by
      rw [Engine.obtain_eq_compile he, Engine.obtain_eq_compile hf, hcompile]
    have hnext := hset (e.obtain (t.registry n) source).2 (f.obtain (t.registry n) source).2
      (e.obtain_continues _ source).options (f.obtain_continues _ source).options
    simp only [stepOn, hreg]
    generalize e.obtain (t.registry n) source = x at hgot hnext ⊢
    generalize f.obtain (t.registry n) source = y at hgot hnext ⊢
    obtain ⟨error | a, e'⟩ := x
    · obtain ⟨error' | b, f'⟩ := y
      · cases hgot
        exact ⟨rfl, rfl, hnext⟩
      · cases hgot
    · obtain ⟨error' | b, f'⟩ := y
      · cases hgot
      · have hab : a.compiled = b.compiled := Except.ok.inj hgot
        exact ⟨congrArg (Outcome.obtained · []) hab, rfl, hnext.setSlot slot hab⟩
  | runSlot slot context =>
    have hslot := h.slot_eq slot
    simp only [stepOn, hreg]
    generalize NameMap.find? slot s.slots = x at hslot ⊢
    rcases x with _ | a
    · rw [Option.map_eq_none_iff.1 hslot.symm]
      exact ⟨rfl, rfl, h⟩
    · obtain ⟨b, hb, hab⟩ := Option.map_eq_some_iff.1 hslot.symm
      rw [hb]
      dsimp only
      rw [hab]
      split
      · exact h.conclude n _ _
      · exact h.conclude n _ _
  | runSource source context =>
    let w : World := ⟨t.registry n, []⟩
    have hrun : e.runAfresh source context w = f.runAfresh source context w := by
      rw [Engine.runAfresh, Engine.runAfresh, hcompile]
    have hnext := hset (e.obtain w.registry source).2 (f.obtain w.registry source).2
      (e.obtain_continues _ source).options (f.obtain_continues _ source).options
    simp only [stepOn, hreg]
    rw [Engine.runSource_eq_runAfresh (w := w) he, Engine.runSource_eq_runAfresh (w := w) hf, hrun]
    rcases f.runAfresh source context w with ⟨(error | error) | v, w'⟩
    all_goals exact hnext.conclude n _ w'
  | forget => exact ⟨rfl, rfl, hset _ _ rfl rfl⟩
  | wait => exact ⟨rfl, rfl, h⟩

theorem create_alike (h : s.Alike t) (id : String) (source : RegistrySource)
    {options options' : Option Value}
    (hlimits : (decodeOptions options).map Engine.Options.limits =
      (decodeOptions options').map Engine.Options.limits) :
    (s.create id source options).1.apartFromKeeping =
        (t.create id source options').1.apartFromKeeping ∧
      (s.create id source options).2.Alike (t.create id source options').2 := by
  unfold create
  rw [h.provide_eq source]
  generalize decodeOptions options = x at hlimits ⊢
  rcases x with _ | o
  · rw [Option.map_eq_none_iff.1 hlimits.symm]
    exact ⟨rfl, h⟩
  · obtain ⟨o', ho', hoo⟩ := Option.map_eq_some_iff.1 hlimits.symm
    rw [ho']
    rcases t.provide source with _ | ⟨number, registries⟩
    · exact ⟨rfl, h⟩
    · have hnew : Alike { s with registries, engineCount := s.engineCount + 1 }
          { t with registries, engineCount := t.engineCount + 1 } := ⟨rfl, h.engines, h.slots⟩
      have hterms : HostedEngine.terms ⟨number, { number := s.engineCount, options := o }⟩ =
          HostedEngine.terms ⟨number, { number := t.engineCount, options := o' }⟩ := by
        rw [HostedEngine.terms, HostedEngine.terms, hoo]
      have hset := hnew.setEngine id hterms
      refine ⟨?_, hset⟩
      dsimp only [Outcome.apartFromKeeping]
      rw [hset.registry_eq, hoo]

/-- The commands differ at most in whether a new engine keeps what it compiles. -/
inductive Command.Agrees : Command → Command → Prop where
  | create (id : String) (source : RegistrySource) {options options' : Option Value} :
      (decodeOptions options).map Engine.Options.limits =
        (decodeOptions options').map Engine.Options.limits →
      Agrees (.create id source options) (.create id source options')
  | act (id : String) (action : Step) : Agrees (.act id action) (.act id action)

theorem perform_alike [CallStack] (h : s.Alike t) (hs : s.Coherent) (ht : t.Coherent)
    {c d : Command} (hcd : c.Agrees d) : AlikeAnswers (s.perform c) (t.perform d) := by
  cases hcd with
  | create id source hlimits =>
    obtain ⟨houtcome, hsession⟩ := create_alike h id source hlimits
    exact ⟨houtcome, rfl, hsession⟩
  | act id action =>
    rw [perform, perform, step, step]
    rcases h.engine?_cases id with ⟨he, hf⟩ | ⟨e, f, he, hf, hterms⟩
    · rw [engine?] at he hf
      rw [he, hf]
      exact ⟨rfl, rfl, h⟩
    · have hfresh := hs.fresh he
      have hfresh' := ht.fresh hf
      rw [engine?] at he hf
      rw [he, hf]
      exact stepOn_alike h hterms hfresh hfresh' action

/-- The outcomes and the events of a history, one after the other. -/
def trace [CallStack] (s : Session) : List Command → List (Outcome × List Event)
  | [] => []
  | c :: cs => ((s.perform c).1, (s.perform c).2.1) :: (s.perform c).2.2.trace cs

def observed [CallStack] (s : Session) (history : List Command) : List (Outcome × List Event) :=
  (s.trace history).map fun answer => (answer.1.apartFromKeeping, answer.2)

theorem observed_alike [CallStack] (h : s.Alike t) (hs : s.Coherent) (ht : t.Coherent)
    {cs ds : List Command} (hcd : List.Forall₂ Command.Agrees cs ds) : s.observed cs = t.observed ds := by
  induction hcd generalizing s t with
  | nil => rfl
  | @cons c d cs ds hcd _ ih =>
    obtain ⟨houtcome, hevents, hsession⟩ := perform_alike h hs ht hcd
    have hrest := ih hsession (hs.moves (s.perform_moves c)) (ht.moves (t.perform_moves d))
    unfold observed at *
    rw [trace, trace, List.map_cons, List.map_cons, hrest, houtcome, hevents]

/-- In every session that a history leads to, an engine obtains what it compiles. Two histories that
differ only in which engines keep what they compile have the same outcomes and events, apart from
the names of objects. -/
theorem obtaining_is_compiling [CallStack] :
    (∀ (history : List Command) (id : String) (e : HostedEngine),
      let s := ({} : Session).after history
      s.engine? id = some e →
      ∀ source : String,
        (e.engine.obtain (s.registry e.registry) source).1.map Shared.compiled =
          e.engine.compile (s.registry e.registry) source) ∧
    ∀ history history' : List Command, List.Forall₂ Command.Agrees history history' →
      ({} : Session).observed history = ({} : Session).observed history' := by
  constructor
  · intro history id e s he source
    exact Engine.obtain_eq_compile ((coherent_after history).fresh he) source
  · intro history history' h
    exact observed_alike (.refl _) coherent_start coherent_start h

/-- A helper is replaced after a source that calls it was kept. -/
theorem obtaining_is_compiling_sample :
    ∃ (history history' : List Command) (e : HostedEngine),
      let s := ({} : Session).after history
      s.engine? "a" = some e ∧ e.engine.keptCount = 1 ∧
      (e.engine.obtain (s.registry e.registry) "$f").1.map Shared.compiled =
        e.engine.compile (s.registry e.registry) "$f" ∧
      List.Forall₂ Command.Agrees history history' ∧
      ({} : Session).observed history = ({} : Session).observed history' := by
  let options : Value := .object [("cache_compiled", .bool false)]
  let actions : List Command :=
    [.act "a" (.register "$f" (.mk none fun _ => .finish (.ok .null))),
      .act "a" (.obtain "$f" "x"),
      .act "a" (.register "$f" (.mk none fun _ => .finish (.ok (.bool true))))]
  let history : List Command := .create "a" .empty none :: actions
  let history' : List Command := .create "a" .empty (some options) :: actions
  let c : Compiled := ⟨"$f", .helper "$f" [], ["$f"]⟩
  let engine : Engine := { kept := [("$f", ⟨0, 0, c⟩)], made := 1 }
  have he : (({} : Session).after history).engine? "a" = some ⟨0, engine⟩ := rfl
  have hagrees : List.Forall₂ Command.Agrees history history' :=
    .cons (.create "a" .empty rfl)
      (.cons (.act _ _) (.cons (.act _ _) (.cons (.act _ _) .nil)))
  obtain ⟨same, observed⟩ := obtaining_is_compiling
  exact ⟨history, history', ⟨0, engine⟩, he, rfl, same history "a" ⟨0, engine⟩ he "$f", hagrees,
    observed history history' hagrees⟩

end Session

end SigilExpr
