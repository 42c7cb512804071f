import Mathlib.Data.List.Induction
import SigilExpr.Proofs.Session.Coherence
import SigilExpr.Proofs.Session.Confinement

/-!
# What the engines of a session keep

What a step does to the engine that it is done on is one function of the engine, its registry and
the step. From it follows what the engine keeps after a history: the objects that it handed out
since it was made to forget, each under its source, and no others. A source that does not compile
adds nothing, and neither does a run of an expression that was compiled before.

A source counts as obtained when it compiles, also where the run that it was obtained for fails.
-/

set_option autoImplicit false

namespace SigilExpr

/-- The source that a step obtains from its engine, to hand out the object or to run it. -/
def Step.source? : Step → Option String
  | .obtain source _ | .runSource source _ => some source
  | _ => none

namespace Engine

/-- What a step makes of the engine that it is done on. -/
def next (e : Engine) (r : Registry) : Step → Engine
  | .compile source _ =>
    match e.compile r source with
    | .error _ => e
    | .ok c => (e.make c).2
  | .obtain source _ | .runSource source _ => (e.obtain r source).2
  | .forget => e.forget
  | _ => e

variable {e : Engine} {r : Registry} {action : Step} {source : String}

theorem next_of_source? (h : action.source? = some source) :
    e.next r action = (e.obtain r source).2 := by
  cases action <;> cases h <;> rfl

/-- Only what obtains a source or forgets changes what is kept. -/
theorem kept_next (h : action.source? = none) (hforget : action ≠ .forget) :
    (e.next r action).kept = e.kept := by
  cases action with
  | obtain source slot => cases h
  | runSource source context => cases h
  | forget => exact absurd rfl hforget
  | compile source slot =>
    rw [next]
    split <;> rfl
  | _ => rfl

/-- A step that does not forget keeps what was kept and adds what it obtains. -/
theorem find?_next (hforget : action ≠ .forget) (source : String) (shared : Shared) :
    NameMap.find? source (e.next r action).kept = some shared ↔
      (e.options.keepsCompiled = true ∧ action.source? = some source ∧
        (e.obtain r source).1 = .ok shared) ∨
      NameMap.find? source e.kept = some shared := by
  cases hsource : action.source? with
  | none => simp [kept_next hsource hforget]
  | some source' =>
    rw [next_of_source? hsource, find?_obtain]
    constructor
    · rintro (⟨hkeeps, rfl, hok⟩ | hfind)
      · exact .inl ⟨hkeeps, rfl, hok⟩
      · exact .inr hfind
    · rintro (⟨hkeeps, hs, hok⟩ | hfind)
      · obtain rfl := Option.some.inj hs
        exact .inl ⟨hkeeps, rfl, hok⟩
      · exact .inr hfind

theorem next_continues (e : Engine) (r : Registry) (action : Step) :
    Continues r e (e.next r action) := by
  cases action with
  | compile source slot =>
    rw [next]
    split
    · exact .refl r e
    · next c _ => exact .make r e c
  | obtain source slot => exact e.obtain_continues r source
  | runSource source context => exact e.obtain_continues r source
  | forget => exact .forget r e
  | _ => exact .refl r e

/-- What an engine keeps is in order of the sources and made by the engine itself, and it is nothing
if the options say so. -/
structure Tidy (e : Engine) : Prop where
  inOrder : NameMap.InOrder e.kept
  own : ∀ ⦃source shared⦄, NameMap.find? source e.kept = some shared →
    shared.maker = e.number ∧ shared.index < e.made
  eq_nil : e.options.keepsCompiled = false → e.kept = []

namespace Tidy

theorem of_kept_eq_nil (h : e.kept = []) : e.Tidy := by
  refine ⟨?_, ?_, fun _ => h⟩
  · rw [h]
    exact List.Pairwise.nil
  · intro source shared hfind
    rw [h] at hfind
    cases hfind

theorem make (h : e.Tidy) (c : Compiled) : (e.make c).2.Tidy := by
  refine ⟨h.inOrder, ?_, h.eq_nil⟩
  intro source shared hfind
  obtain ⟨hmaker, hindex⟩ := h.own hfind
  exact ⟨hmaker, Nat.lt_succ_of_lt hindex⟩

theorem insert (h : e.Tidy) (hkeeps : e.options.keepsCompiled = true) (source : String)
    (c : Compiled) :
    Tidy { (e.make c).2 with kept := NameMap.insert source (e.make c).1 e.kept } := by
  refine ⟨h.inOrder.insert source _, ?_, ?_⟩
  · intro source' shared hfind
    by_cases hs : source' = source
    · subst hs
      rw [NameMap.find?_insert_self] at hfind
      obtain rfl := Option.some.inj hfind
      exact ⟨rfl, Nat.lt_succ_self _⟩
    · rw [NameMap.find?_insert_of_ne hs] at hfind
      exact (h.make c).own hfind
  · intro hkeeps'
    exact absurd (hkeeps.symm.trans hkeeps') Bool.noConfusion

theorem obtain (h : e.Tidy) (r : Registry) (source : String) : (e.obtain r source).2.Tidy := by
  rcases e.obtain_cases r source with heq | ⟨c, -, ⟨hkeeps, heq⟩ | heq⟩
  · rw [heq]
    exact h
  · rw [heq]
    exact h.insert hkeeps source c
  · rw [heq]
    exact h.make c

theorem next (h : e.Tidy) (r : Registry) (action : Step) : (e.next r action).Tidy := by
  cases action with
  | compile source slot =>
    rw [Engine.next]
    split
    · exact h
    · next c _ => exact h.make c
  | obtain source slot => exact h.obtain r source
  | runSource source context => exact h.obtain r source
  | forget => exact of_kept_eq_nil rfl
  | _ => exact h

/-- An object that is made anew is none of those that are kept. -/
theorem isSameObject_make (h : e.Tidy) {shared : Shared}
    (hfind : NameMap.find? source e.kept = some shared) (c : Compiled) :
    shared.isSameObject (e.make c).1 = false := by
  obtain ⟨-, hindex⟩ := h.own hfind
  have hne : shared.index ≠ e.made := Nat.ne_of_lt hindex
  simp [Shared.isSameObject, Engine.make, hne]

theorem names_nodup (h : e.Tidy) : (NameMap.names e.kept).Nodup :=
  (List.pairwise_map.2 h.inOrder).imp fun hlt => ne_of_lt hlt

end Tidy

end Engine

namespace Session

variable {s t : Session} {id : String} {e : HostedEngine} {history : List Command}

/-- Of the engines, a step changes the one that it is done on. -/
theorem stepOn_engine? [CallStack] (he : s.engine? id = some e) (action : Step) :
    (s.stepOn id e action).2.2.engine? id =
      some { e with engine := e.engine.next (s.registry e.registry) action } := by
  have hset (t : Session) (e : HostedEngine) : (t.setEngine id e).engine? id = some e :=
    NameMap.find?_insert_self id e t.engines
  have hsettle (outcome : Registry → Outcome) (result : Except RegistryError Registry) :
      (s.settle e.registry outcome result).2.2.engine? id = some e := by
    cases result <;> exact he
  cases action with
  | register name helper => exact hsettle _ _
  | add helper => exact hsettle _ _
  | «alias» name target =>
    rw [stepOn]
    split
    · exact he
    · exact hsettle _ _
  | inspect names | wait => exact he
  | invoke name args =>
    rw [stepOn]
    split <;> exact he
  | compile source slot =>
    rw [stepOn, Engine.next]
    cases e.engine.compile (s.registry e.registry) source with
    | error error => exact he
    | ok c => exact hset s _
  | obtain source slot =>
    rw [stepOn, Engine.next]
    rcases e.engine.obtain (s.registry e.registry) source with ⟨error | shared, engine⟩
    · exact hset s _
    · exact hset s _
  | runSlot slot context =>
    rw [stepOn]
    split
    · exact he
    · split <;> exact he
  | runSource source context =>
    have hengine := e.engine.runSource_engine source context ⟨s.registry e.registry, []⟩
    rw [stepOn, Engine.next, ← hengine]
    rcases e.engine.runSource source context ⟨s.registry e.registry, []⟩ with
      ⟨(error | error) | v, w, engine⟩
    all_goals exact hset s _
  | forget => exact hset s _

/-- What a command does to the engine of a name: nothing, a step, or to put another in its place. -/
theorem perform_engine?_cases [CallStack] (s : Session) (id : String) (c : Command) :
    ((s.perform c).2.2.engine? id = s.engine? id ∧
      ∀ action, c = .act id action → s.engine? id = none) ∨
    (∃ e action, c = .act id action ∧ s.engine? id = some e ∧
      (s.perform c).2.2.engine? id =
        some { e with engine := e.engine.next (s.registry e.registry) action }) ∨
    ∃ e, (∀ action, c ≠ .act id action) ∧ (s.perform c).2.2.engine? id = some e ∧
      e.engine.number = s.engineCount ∧ e.engine.kept = [] := by
  cases c with
  | create id' source options =>
    have hact (action : Step) : Command.create id' source options ≠ .act id action :=
      Command.noConfusion
    rcases s.create_cases id' source options with heq | hcreates
    · exact .inl ⟨congrArg (engine? · id) heq, fun action h => absurd h (hact action)⟩
    · obtain ⟨e, hnumber, hkept, hengines⟩ := hcreates.engines
      by_cases hid : id = id'
      · exact .inr (.inr ⟨e, hact, (hengines id).trans (if_pos hid), hnumber, hkept⟩)
      · exact .inl ⟨(hengines id).trans (if_neg hid), fun action h => absurd h (hact action)⟩
  | act id' action =>
    cases he : s.engine? id' with
    | none =>
      have hstep : s.perform (.act id' action) = (.noEngine, [], s) := by
        have he : NameMap.find? id' s.engines = none := he
        rw [perform, step, he]
      refine .inl ⟨by rw [hstep], ?_⟩
      intro action' h
      cases h
      exact he
    | some e =>
      rw [perform_act he]
      by_cases hid : id = id'
      · subst hid
        exact .inr (.inl ⟨e, action, rfl, he, stepOn_engine? he action⟩)
      · obtain ⟨engine, -, hengines⟩ := (stepOn_follows he action).engines
        refine .inl ⟨(hengines id).trans (if_neg hid), ?_⟩
        intro action' h
        cases h
        exact absurd rfl hid

/-- The engine of a name, after any history, is tidy. -/
theorem tidy_after [CallStack] (history : List Command) (id : String) (e : HostedEngine) :
    (({} : Session).after history).engine? id = some e → e.engine.Tidy := by
  induction history using List.reverseRecOn generalizing e with
  | nil => exact fun he => by cases he
  | append_singleton history c ih =>
    intro he
    rw [after_append] at he
    rcases (({} : Session).after history).perform_engine?_cases id c with
      ⟨hsame, -⟩ | ⟨f, action, -, hf, hnext⟩ | ⟨f, -, hf, -, hkept⟩
    · exact ih e (hsame ▸ he)
    · obtain rfl := Option.some.inj (hnext.symm.trans he)
      exact (ih f hf).next _ action
    · obtain rfl := Option.some.inj (hf.symm.trans he)
      exact .of_kept_eq_nil hkept

/-- The command obtains the object for the source from the engine of the name and number. -/
def Obtains (s : Session) (id : String) (number : Nat) (source : String) (c : Command)
    (shared : Shared) : Prop :=
  ∃ e action, c = .act id action ∧ s.engine? id = some e ∧ e.engine.number = number ∧
    action.source? = some source ∧
    (e.engine.obtain (s.registry e.registry) source).1 = .ok shared

theorem not_obtains {number : Nat} {source : String} {c : Command} {shared : Shared}
    (h : ∀ action, c ≠ .act id action) : ¬ s.Obtains id number source c shared := by
  rintro ⟨e, action, hc, -⟩
  exact h action hc

theorem obtains_act_iff (he : s.engine? id = some e) (action : Step) (source : String)
    (shared : Shared) :
    s.Obtains id e.engine.number source (.act id action) shared ↔
      action.source? = some source ∧
        (e.engine.obtain (s.registry e.registry) source).1 = .ok shared := by
  constructor
  · rintro ⟨e', action', heq, he', -, hsource, hok⟩
    cases heq
    obtain rfl := Option.some.inj (he.symm.trans he')
    exact ⟨hsource, hok⟩
  · rintro ⟨hsource, hok⟩
    exact ⟨e, action, rfl, he, rfl, hsource, hok⟩

/-- A source is obtained exactly if the step does not end with an error of compiling. -/
theorem exists_obtains_iff [CallStack] (he : s.engine? id = some e) {action : Step}
    {source : String} (hsource : action.source? = some source) :
    (∃ shared, s.Obtains id e.engine.number source (.act id action) shared) ↔
      ∀ error, (s.perform (.act id action)).1 ≠ .compileError error := by
  simp only [obtains_act_iff he, hsource, true_and, perform_act he]
  cases action with
  | obtain source' slot =>
    cases hsource
    rw [stepOn]
    rcases e.engine.obtain (s.registry e.registry) source with ⟨error | shared, engine⟩ <;> simp
  | runSource source' context =>
    cases hsource
    rw [stepOn, Engine.runSource]
    rcases e.engine.obtain (s.registry e.registry) source with ⟨error | shared, engine⟩
    · simp [conclude]
    · dsimp only
      rcases shared.compiled.run context ⟨s.registry e.registry, []⟩ with ⟨error | v, w⟩ <;>
        simp [conclude]
  | _ => cases hsource

/-- The object that is obtained for a slot is the one that the slot then holds. -/
theorem Obtains.slot_eq [CallStack] {number : Nat} {source slot : String} {shared : Shared}
    (h : s.Obtains id number source (.act id (.obtain source slot)) shared) :
    (s.perform (.act id (.obtain source slot))).1 =
        .obtained shared.compiled (s.slotsWith shared.isSameObject) ∧
      NameMap.find? slot (s.perform (.act id (.obtain source slot))).2.2.slots = some shared := by
  obtain ⟨e, action, heq, he, -, -, hok⟩ := h
  cases heq
  rw [perform_act he, stepOn]
  generalize e.engine.obtain (s.registry e.registry) source = x at hok ⊢
  obtain ⟨result, engine⟩ := x
  obtain rfl : result = .ok shared := hok
  exact ⟨rfl, NameMap.find?_insert_self slot shared _⟩

/-- A command of the history obtained the object for the source from the engine of the name and
number, and none after it made the engine forget. -/
def ObtainedSince [CallStack] (history : List Command) (id : String) (number : Nat)
    (source : String) (shared : Shared) : Prop :=
  ∃ before c later, history = before ++ c :: later ∧
    (({} : Session).after before).Obtains id number source c shared ∧
    Command.act id .forget ∉ later

variable {number : Nat} {source : String} {shared : Shared}

theorem obtainedSince_concat [CallStack] (c : Command) :
    ObtainedSince (history ++ [c]) id number source shared ↔
      (({} : Session).after history).Obtains id number source c shared ∨
        c ≠ .act id .forget ∧ ObtainedSince history id number source shared := by
  constructor
  · rintro ⟨before, d, later, heq, hobtains, hforget⟩
    rcases List.eq_nil_or_concat later with rfl | ⟨later, d', rfl⟩
    · obtain ⟨rfl, hc⟩ := List.append_inj' heq rfl
      obtain rfl := List.singleton_inj.1 hc
      exact .inl hobtains
    · rw [List.concat_eq_append, ← List.cons_append, ← List.append_assoc] at heq
      obtain ⟨rfl, hc⟩ := List.append_inj' heq rfl
      obtain rfl := List.singleton_inj.1 hc
      rw [List.concat_eq_append, List.mem_append, List.mem_singleton, not_or] at hforget
      exact .inr ⟨Ne.symm hforget.2, before, d, later, rfl, hobtains, hforget.1⟩
  · rintro (hobtains | ⟨hc, before, d, later, rfl, hobtains, hforget⟩)
    · exact ⟨history, c, [], rfl, hobtains, List.not_mem_nil⟩
    · refine ⟨before, d, later ++ [c], by simp, hobtains, ?_⟩
      rw [List.mem_append, List.mem_singleton, not_or]
      exact ⟨hforget, hc.symm⟩

/-- An engine that a command would create now has obtained nothing before. -/
theorem ObtainedSince.number_lt [CallStack] (h : ObtainedSince history id number source shared) :
    number < (({} : Session).after history).engineCount := by
  obtain ⟨before, c, later, rfl, ⟨e, -, -, he, rfl, -⟩, -⟩ := h
  rw [after_append]
  exact (((coherent_after before).knows he).after (c :: later)).number_lt

/-- By induction on the history from its end: what the last command does to the engine is one of the
cases of `perform_engine?_cases`. -/
theorem find?_kept_iff [CallStack] (history : List Command) (id : String) (e : HostedEngine) :
    (({} : Session).after history).engine? id = some e →
    e.engine.options.keepsCompiled = true → ∀ source shared,
      NameMap.find? source e.engine.kept = some shared ↔
        ObtainedSince history id e.engine.number source shared := by
  induction history using List.reverseRecOn generalizing e with
  | nil => exact fun he => by cases he
  | append_singleton history c ih =>
    intro he hkeeps source shared
    rw [after_append] at he
    rw [obtainedSince_concat]
    rcases (({} : Session).after history).perform_engine?_cases id c with
      ⟨hsame, hnone⟩ | ⟨f, action, rfl, hf, hnext⟩ | ⟨f, hact, hf, hnumber, hkept⟩
    · have he : (({} : Session).after history).engine? id = some e := hsame ▸ he
      have hact (action : Step) : c ≠ .act id action := by
        intro hc
        rw [hnone action hc] at he
        cases he
      have hobtains : ¬ (({} : Session).after history).Obtains id e.engine.number source c shared :=
        not_obtains hact
      rw [ih e he hkeeps]
      simp [hobtains, hact .forget]
    · obtain rfl := Option.some.inj (hnext.symm.trans he)
      dsimp only at hkeeps ⊢
      rw [(f.engine.next_continues _ action).options] at hkeeps
      rw [(f.engine.next_continues _ action).number, obtains_act_iff hf]
      by_cases hforget : action = .forget
      · subst hforget
        simp [Engine.next, Engine.forget, NameMap.find?, Step.source?]
      · rw [Engine.find?_next hforget, ih f hf hkeeps]
        simp [hkeeps, hforget]
    · obtain rfl := Option.some.inj (hf.symm.trans he)
      have hobtains : ¬ (({} : Session).after history).Obtains id f.engine.number source c shared :=
        not_obtains hact
      have hsince : ¬ ObtainedSince history id f.engine.number source shared := by
        intro h
        have hlt := h.number_lt
        omega
      simp [hkept, hobtains, hsince, NameMap.find?]

/-- What is kept is found again, as it is, and leaves the engine as it is. -/
theorem perform_of_kept [CallStack] (he : s.engine? id = some e)
    (hkeeps : e.engine.options.keepsCompiled = true)
    (hfind : NameMap.find? source e.engine.kept = some shared) {action : Step}
    (hsource : action.source? = some source) :
    (∀ shared', s.Obtains id e.engine.number source (.act id action) shared' ↔ shared' = shared) ∧
      (s.perform (.act id action)).2.2.engine? id = some e := by
  have hobtain : e.engine.obtain (s.registry e.registry) source = (.ok shared, e.engine) := by
    rw [Engine.obtain, if_pos hkeeps, hfind]
  refine ⟨?_, ?_⟩
  · intro shared'
    rw [obtains_act_iff he, hobtain]
    constructor
    · exact fun h => (Except.ok.inj h.2).symm
    · rintro rfl
      exact ⟨hsource, rfl⟩
  · rw [perform_act he, stepOn_engine? he, Engine.next_of_source? hsource, hobtain]

/-- No command changes what an engine keeps but one that obtains something from it, makes it forget
or puts another engine in its place. -/
theorem Coherent.kept_eq [CallStack] (hs : s.Coherent) (he : s.engine? id = some e) {c : Command}
    {f : HostedEngine} (hf : (s.perform c).2.2.engine? id = some f)
    (hnumber : f.engine.number = e.engine.number) (hforget : c ≠ .act id .forget)
    (hobtains : ∀ source shared, ¬ s.Obtains id e.engine.number source c shared) :
    f.engine.kept = e.engine.kept := by
  rcases s.perform_engine?_cases id c with
    ⟨hsame, -⟩ | ⟨e', action, rfl, he', hnext⟩ | ⟨f', -, hf', hcount, -⟩
  · obtain rfl := Option.some.inj (hf.symm.trans (hsame.trans he))
    rfl
  · obtain rfl := Option.some.inj (he.symm.trans he')
    obtain rfl := Option.some.inj (hnext.symm.trans hf)
    cases hsource : action.source? with
    | none => exact Engine.kept_next hsource fun h => hforget (h ▸ rfl)
    | some source =>
      dsimp only
      rw [Engine.next_of_source? hsource]
      rcases e.engine.obtain_cases (s.registry e.registry) source with heq | ⟨c, hok, -⟩
      · rw [heq]
      · exact absurd ((obtains_act_iff he action source _).2 ⟨hsource, hok⟩) (hobtains source _)
  · obtain rfl := Option.some.inj (hf'.symm.trans hf)
    have hlt := hs.number_lt he
    omega

/-- What an engine keeps if `obtained` says what it obtained so far, and what a command that is done
next makes of it. -/
structure KeepsObtained [CallStack] (s : Session) (id : String) (e : HostedEngine)
    (obtained : String → Shared → Prop) : Prop where
  nodup : (NameMap.names e.engine.kept).Nodup
  count : s.keptCount? id = some (NameMap.names e.engine.kept).length
  off : e.engine.options.keepsCompiled = false → NameMap.names e.engine.kept = []
  sources : e.engine.options.keepsCompiled = true → ∀ source,
    source ∈ NameMap.names e.engine.kept ↔ ∃ shared, obtained source shared
  /-- To obtain a source again gives the object it gave before, and changes nothing. -/
  again : e.engine.options.keepsCompiled = true → ∀ source shared, obtained source shared →
    (∀ c, shared.isSameObject (e.engine.make c).1 = false) ∧
    ∀ action, action.source? = some source →
      (∀ shared', s.Obtains id e.engine.number source (.act id action) shared' ↔
        shared' = shared) ∧
      (s.perform (.act id action)).2.2.engine? id = some e
  /-- A source that compiles is obtained, even if the run that it was obtained for fails. -/
  succeeds : ∀ action source, action.source? = some source →
    ((∃ shared, s.Obtains id e.engine.number source (.act id action) shared) ↔
      ∀ error, (s.perform (.act id action)).1 ≠ .compileError error)
  handedOut : ∀ source slot shared,
    s.Obtains id e.engine.number source (.act id (.obtain source slot)) shared →
    NameMap.find? slot (s.perform (.act id (.obtain source slot))).2.2.slots = some shared
  unchanged : ∀ c f, (s.perform c).2.2.engine? id = some f → f.engine.number = e.engine.number →
    c ≠ .act id .forget → (∀ source shared, ¬ s.Obtains id e.engine.number source c shared) →
    f.engine.kept = e.engine.kept

/-- After any history, an engine that is to keep what it compiles keeps the sources that it obtained
since it was created or last made to forget, each once, and whether or not a run failed over them.
To obtain one of these again gives the one object that it gave before, which is none that is made
anew, and nothing but to obtain another source, to forget or to create an engine changes what is
kept. An engine that is not to keep anything keeps nothing. -/
theorem engine_keeps_what_it_obtained [CallStack] (history : List Command) (id : String)
    (e : HostedEngine) (he : (({} : Session).after history).engine? id = some e) :
    KeepsObtained (({} : Session).after history) id e
      (ObtainedSince history id e.engine.number) where
  nodup := (tidy_after history id e he).names_nodup
  count := by
    have he : NameMap.find? id (({} : Session).after history).engines = some e := he
    rw [keptCount?, he]
    exact congrArg some (List.length_map _).symm
  off hkeeps := congrArg NameMap.names ((tidy_after history id e he).eq_nil hkeeps)
  sources := by
    intro hkeeps source
    rw [← NameMap.isSome_find?_iff, Option.isSome_iff_exists]
    exact exists_congr (find?_kept_iff history id e he hkeeps source)
  again := by
    intro hkeeps source shared hsince
    have hkept := (find?_kept_iff history id e he hkeeps source shared).2 hsince
    exact ⟨(tidy_after history id e he).isSameObject_make hkept,
      fun _ => perform_of_kept he hkeeps hkept⟩
  succeeds _ _ := exists_obtains_iff he
  handedOut _ _ _ hobtains := hobtains.slot_eq.2
  unchanged _ _ := (coherent_after history).kept_eq he

theorem engine_keeps_what_it_obtained_sample :
    ∃ (history : List Command) (e : HostedEngine) (shared : Shared),
      let s := ({} : Session).after history
      s.engine? "a" = some e ∧ e.engine.options.keepsCompiled = true ∧
      NameMap.names e.engine.kept = ["$f()"] ∧ s.keptCount? "a" = some 1 ∧
      KeepsObtained s "a" e (ObtainedSince history "a" e.engine.number) ∧
      ObtainedSince history "a" e.engine.number "$f()" shared ∧
      (¬ ∃ shared, ObtainedSince history "a" e.engine.number "$f" shared) ∧
      (∀ shared', s.Obtains "a" e.engine.number "$f()" (.act "a" (.obtain "$f()" "x")) shared' ↔
        shared' = shared) ∧
      (s.perform (.act "a" (.obtain "$f()" "x"))).2.2.engine? "a" = some e := by
  let context : Context := .ofValue .null
  let before : List Command :=
    [.create "a" .empty none,
      .act "a" (.register "$f" (.mk none fun _ => .finish (.error (.failed "")))),
      .act "a" (.obtain "$f" "x"), .act "a" .forget]
  -- this run fails, over a source that compiles
  let run : Command := .act "a" (.runSource "$f()" context)
  let history : List Command := before ++ [run]
  let shared : Shared := ⟨0, 1, ⟨"$f()", .helper "$f" [], ["$f"]⟩⟩
  let e : HostedEngine := ⟨0, { kept := [("$f()", shared)], made := 2 }⟩
  have he : (({} : Session).after history).engine? "a" = some e := rfl
  have hkeeps := engine_keeps_what_it_obtained history "a" e he
  have hsince : ObtainedSince history "a" 0 "$f()" shared := by
    have hobtains : (({} : Session).after before).Obtains "a" 0 "$f()" run shared :=
      ⟨⟨0, { made := 1 }⟩, .runSource "$f()" context, rfl, rfl, rfl, rfl, rfl⟩
    exact ⟨before, run, [], rfl, hobtains, List.not_mem_nil⟩
  obtain ⟨-, hagain⟩ := hkeeps.again rfl "$f()" shared hsince
  obtain ⟨hobject, hengine⟩ := hagain (.obtain "$f()" "x") rfl
  exact ⟨history, e, shared, he, rfl, rfl, hkeeps.count, hkeeps, hsince,
    fun h => absurd ((hkeeps.sources rfl "$f").2 h) (by decide), hobject, hengine⟩

end Session

end SigilExpr
