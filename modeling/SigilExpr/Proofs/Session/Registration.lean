import SigilExpr.Proofs.Engine.HelperSource
import SigilExpr.Proofs.Helper.Registration
import SigilExpr.Proofs.Session.Coherence
import SigilExpr.Proofs.Session.Confinement

/-!
# Registries of sessions

Every registry of a session is what registrations made of the empty one, and each step makes more of
it by registrations alone, whether the host does them or a helper while an expression runs. So the
names in a registry are names for helpers, none is ever lost, and each one can be called by a source
that is the name itself.

Nothing is said about WHICH helpers a run registers, only about what a registration does.
-/

set_option autoImplicit false

namespace SigilExpr

/-- The step is to register the helper under the name. -/
inductive Step.Registers (r : Registry) : Step → String → Helper → Prop where
  | register (name : String) (helper : Helper) : Registers r (.register name helper) name helper
  | add {name : String} {helper : Helper} :
      helper.declaredName = some name → Registers r (.add helper) name helper
  | «alias» {name : String} {helper : Helper} (target : String) :
      r.find? name = some helper → Registers r (.alias name target) target helper

/-- What a registration comes to: a registry with the name bound, or a refusal if the name is none
for a helper. -/
structure Registry.Registering (r : Registry) (name : String) (helper : Helper)
    (bound : Registry → Prop) (refused : Prop) : Prop where
  binds : isSigilName name = true → ∃ s, r.Binds name helper s ∧ bound s
  refuses : isSigilName name = false → refused

/-- A helper that registers another goes on with the registry that has its name bound, or with the
world as it was. -/
theorem Action.perform_register
    (call : String → List Value → World → Except HelperError Value × World) (name : String) (helper : Helper) (next : Except RegistryError PUnit → Action) (w : World) :
    w.registry.Registering name helper
      (fun r => (Action.register name helper next).perform call w =
        (next (.ok ())).perform call { w with registry := r })
      ((Action.register name helper next).perform call w =
        (next (.error (.invalidName name))).perform call w) where
  binds hname := by
    obtain ⟨r, hr, hbinds⟩ := Registry.register_of_isSigilName (r := w.registry) hname helper
    refine ⟨r, hbinds, ?_⟩
    rw [perform, hr]
  refuses hname := by
    rw [perform, Registry.register_of_not_isSigilName hname helper]

namespace Session

open Text

variable {s t : Session} {id : String} {e : HostedEngine} {name : String} {helper : Helper}
  {action : Step}

/-- A step fails to register without a trace in the session. -/
theorem stepOn_registryError [CallStack] {error : RegistryError}
    (h : (s.stepOn id e action).1 = .registryError error) : (s.stepOn id e action).2 = ([], s) := by
  have hsettle {outcome : Registry → Outcome} {result : Except RegistryError Registry}
      (houtcome : ∀ r, outcome r ≠ .registryError error)
      (h : (s.settle e.registry outcome result).1 = .registryError error) :
      (s.settle e.registry outcome result).2 = ([], s) := by
    cases result with
    | ok r => exact absurd h (houtcome r)
    | error _ => rfl
  cases action with
  | register name helper => exact hsettle (fun _ h => by cases h) h
  | add helper => exact hsettle (fun _ h => by cases h) h
  | «alias» name target =>
    rw [stepOn] at h ⊢
    split at h
    · cases h
    · exact hsettle (fun _ h => by cases h) h
  | inspect names | forget | wait => cases h
  | invoke name args =>
    rw [stepOn] at h
    split at h <;> cases h
  | compile source slot =>
    rw [stepOn] at h
    split at h <;> cases h
  | obtain source slot =>
    rw [stepOn] at h
    split at h <;> cases h
  | runSlot slot context =>
    rw [stepOn] at h
    split at h
    · cases h
    · split at h <;> cases h
  | runSource source context =>
    rw [stepOn] at h
    split at h <;> cases h

/-- By what kind of registration it is: all of them come to the same check of the name. -/
theorem stepOn_of_registers [CallStack] (id : String)
    (h : action.Registers (s.registry e.registry) name helper) :
    ∃ outcome : Registry → Outcome, s.stepOn id e action =
      s.settle e.registry outcome ((s.registry e.registry).register name helper) := by
  cases h with
  | register name helper => exact ⟨_, rfl⟩
  | add hname =>
    rw [stepOn, Registry.add, hname]
    exact ⟨_, rfl⟩
  | «alias» target hfind =>
    rw [stepOn, hfind]
    exact ⟨_, rfl⟩

theorem registry_setRegistry_self {n : Nat} (h : n < s.registries.length) (r : Registry) :
    (s.setRegistry n r).registry n = r := by
  unfold registry setRegistry
  rw [List.getElem?_set_self h]
  rfl

theorem registry_setRegistry_of_ne {n m : Nat} (h : m ≠ n) (r : Registry) :
    (s.setRegistry n r).registry m = s.registry m := by
  unfold registry
  rw [registries_setRegistry_of_ne h]

/-- A registration by the host changes the registry of the engine and no other, or nothing. -/
theorem stepOn_registering [CallStack] (hlt : e.registry < s.registries.length)
    (h : action.Registers (s.registry e.registry) name helper) :
    (s.registry e.registry).Registering name helper
      (fun r => (s.stepOn id e action).2.2.registry e.registry = r ∧
        ∀ n, n ≠ e.registry → (s.stepOn id e action).2.2.registry n = s.registry n)
      (s.stepOn id e action = (.registryError (.invalidName name), [], s)) := by
  obtain ⟨outcome, hstep⟩ := stepOn_of_registers id h
  rw [hstep]
  constructor
  · intro hname
    obtain ⟨r, hr, hbinds⟩ :=
      Registry.register_of_isSigilName (r := s.registry e.registry) hname helper
    rw [hr]
    exact ⟨r, hbinds, registry_setRegistry_self hlt r, fun n hn => registry_setRegistry_of_ne hn r⟩
  · intro hname
    rw [Registry.register_of_not_isSigilName hname helper]
    rfl

theorem stepOn_add_unnamed [CallStack] (h : helper.declaredName = none) :
    s.stepOn id e (.add helper) = (.registryError .unnamed, [], s) := by
  rw [stepOn, Registry.add, h]
  rfl

theorem settle_extends (outcome : Registry → Outcome) {result : Except RegistryError Registry}
    {number : Nat} (h : ∀ r, result = .ok r → (s.registry number).ExtendsTo r) (n : Nat) :
    (s.registry n).ExtendsTo ((s.settle number outcome result).2.2.registry n) := by
  cases result with
  | ok r => exact registry_setRegistry (fun _ => .refl) (h r rfl) n
  | error error => exact .refl

/-- A step makes of every registry what registrations make of it. -/
theorem stepOn_extends [CallStack] (s : Session) (id : String) (e : HostedEngine) (action : Step)
    (n : Nat) :
    (s.registry n).ExtendsTo ((s.stepOn id e action).2.2.registry n) := by
  have hset {t : Session} {r : Registry} (ht : t.registry n = s.registry n)
      (hr : (t.registry e.registry).ExtendsTo r) :
      (s.registry n).ExtendsTo ((t.setRegistry e.registry r).registry n) :=
    ht ▸ registry_setRegistry (fun _ => .refl) hr n
  cases action with
  | register name helper => exact settle_extends _ (fun _ => .single) n
  | add helper => exact settle_extends _ (fun _ => .add) n
  | «alias» name target =>
    rw [stepOn]
    split
    · exact .refl
    · exact settle_extends _ (fun _ => .single) n
  | inspect names | forget | wait => exact .refl
  | invoke name args =>
    have hextends := World.invoke_extends name args ⟨s.registry e.registry, []⟩
    rw [stepOn]
    split
    all_goals
      next heq =>
        rw [heq] at hextends
        exact hset rfl hextends
  | compile source slot =>
    rw [stepOn]
    split <;> exact .refl
  | obtain source slot =>
    rw [stepOn]
    split <;> exact .refl
  | runSlot slot context =>
    rw [stepOn]
    split
    · exact .refl
    · next shared _ =>
      have hextends := shared.compiled.run_extends context ⟨s.registry e.registry, []⟩
      split
      all_goals
        next heq =>
          rw [heq] at hextends
          exact hset rfl hextends
  | runSource source context =>
    have hextends := e.engine.runSource_extends source context ⟨s.registry e.registry, []⟩
    rw [stepOn]
    split
    all_goals
      next heq =>
        rw [heq] at hextends
        exact hset (t := s.setEngine id _) rfl hextends

/-- All registries are what registrations made of the empty one. -/
def Registered (s : Session) : Prop := ∀ n, Registry.empty.ExtendsTo (s.registry n)

theorem registered_start : Registered {} := fun _ => .refl

/-- A registry that is put behind the others takes the place of an empty one, or of none. -/
theorem registry_append_extends (s : Session) {r : Registry} (hr : Registry.empty.ExtendsTo r)
    (n : Nat) : (s.registry n).ExtendsTo (((s.registries ++ [r])[n]?).getD .empty) := by
  rcases Nat.lt_trichotomy n s.registries.length with h | rfl | h
  · rw [List.getElem?_append_left h]
    exact .refl
  · rw [registry, List.getElem?_eq_none (Nat.le_refl _)]
    simpa using hr
  · have hlength : (s.registries ++ [r]).length ≤ n := by
      rw [List.length_append, List.length_singleton]
      exact h
    rw [registry, List.getElem?_eq_none (Nat.le_of_lt h), List.getElem?_eq_none hlength]
    exact .refl

theorem Registered.provide_extends (h : s.Registered) {source : RegistrySource} {number : Nat}
    {registries : List Registry} (hprovide : s.provide source = some (number, registries))
    (n : Nat) :
    (s.registry n).ExtendsTo ((registries[n]?).getD .empty) := by
  cases source with
  | standard =>
    cases hprovide
    exact s.registry_append_extends Registry.empty_extendsTo_standard n
  | empty =>
    cases hprovide
    exact s.registry_append_extends .refl n
  | copyOf id' =>
    obtain ⟨e', -, hprovide⟩ := Option.bind_eq_some_iff.1 hprovide
    cases hprovide
    exact s.registry_append_extends (h e'.registry) n
  | sharedWith id' =>
    obtain ⟨e', -, hprovide⟩ := Option.bind_eq_some_iff.1 hprovide
    cases hprovide
    exact .refl

theorem Registered.perform_extends [CallStack] (h : s.Registered) (c : Command) (n : Nat) :
    (s.registry n).ExtendsTo ((s.perform c).2.2.registry n) := by
  cases c with
  | create id source options =>
    change (s.registry n).ExtendsTo ((s.create id source options).2.registry n)
    unfold create
    split
    · exact .refl
    · split
      · exact .refl
      · next hprovide => exact h.provide_extends hprovide n
  | act id action =>
    rw [perform, step]
    split
    · exact .refl
    · exact s.stepOn_extends id _ action n

/-- By induction on the history: what a command makes of registries, it makes by registrations. -/
theorem Registered.after_extends [CallStack] (h : s.Registered) (cs : List Command) (n : Nat) :
    (s.registry n).ExtendsTo ((s.after cs).registry n) := by
  induction cs generalizing s with
  | nil => exact .refl
  | cons c cs ih =>
    have hc : s.Registered → (s.perform c).2.2.Registered :=
      fun h m => (h m).trans (h.perform_extends c m)
    exact (h.perform_extends c n).trans (ih (hc h))

theorem registered_after [CallStack] (cs : List Command) : (({} : Session).after cs).Registered :=
  fun n => (registered_start n).trans (registered_start.after_extends cs n)

theorem Registered.forall_isSigilName (h : s.Registered) (n : Nat) :
    ∀ name ∈ (s.registry n).names, isSigilName name = true :=
  (h n).forall_isSigilName fun _ hname => absurd hname List.not_mem_nil

/-- What the registry of an engine holds, and what steps and histories from here on make of it. -/
structure HoldsHelperNames [CallStack] (s : Session) (id : String) (e : HostedEngine) : Prop where
  names : ∀ name ∈ (s.registry e.registry).names, isSigilName name = true
  /-- No later history takes a name away. -/
  later : ∀ (later : List Command) (id' : String) (e' : HostedEngine),
    (s.after later).engine? id' = some e' → e'.engine.number = e.engine.number →
    (s.registry e.registry).ExtendsTo ((s.after later).registry e'.registry) ∧
    (s.registry e.registry).names ⊆ ((s.after later).registry e'.registry).names
  failed : ∀ action error, (s.stepOn id e action).1 = .registryError error →
    (s.stepOn id e action).2 = ([], s)
  registering : ∀ action name helper, action.Registers (s.registry e.registry) name helper →
    (s.registry e.registry).Registering name helper
      (fun r => (s.stepOn id e action).2.2.registry e.registry = r ∧
        ∀ n, n ≠ e.registry → (s.stepOn id e action).2.2.registry n = s.registry n)
      (s.stepOn id e action = (.registryError (.invalidName name), [], s))
  unnamed : ∀ helper : Helper, helper.declaredName = none →
    s.stepOn id e (.add helper) = (.registryError .unnamed, [], s)
  /-- A name that is held is a source that calls its helper, and no other name is. -/
  callable : 1 ≤ e.engine.options.limits.maxDepth → ∀ name : String,
    byteLength name.toList ≤ e.engine.options.limits.maxSourceLength →
    (name ∈ (s.registry e.registry).names ↔
      ∃ c, e.engine.compile (s.registry e.registry) name = .ok c ∧ c.root = .helper name [])
  called : ∀ source c, e.engine.compile (s.registry e.registry) source = .ok c →
    ∀ name args, .helper name args ∈ c.root.nodes → name ∈ (s.registry e.registry).names

theorem Registered.holdsHelperNames [CallStack] (h : s.Registered) (horderly : s.Orderly)
    (hcoherent : s.Coherent) (he : s.engine? id = some e) : HoldsHelperNames s id e where
  names := h.forall_isSigilName e.registry
  later := by
    intro later id' e' he' hnumber
    obtain ⟨hregistry, -⟩ := ((hcoherent.knows he).after later).same he' hnumber
    have hextends : (s.registry e.registry).ExtendsTo ((s.after later).registry e'.registry) :=
      hregistry ▸ h.after_extends later e.registry
    refine ⟨hextends, ?_⟩
    intro name hname
    exact NameMap.isSome_find?_iff.1 (hextends.growsTo (NameMap.isSome_find?_iff.2 hname))
  failed _ _ := stepOn_registryError
  registering _ _ _ := stepOn_registering (horderly.registry_lt he)
  unnamed _ := stepOn_add_unnamed
  callable := by
    intro hdepth name hlength
    have hnames := h.forall_isSigilName e.registry
    exact NameMap.isSome_find?_iff.symm.trans
      (Compiled.contains_iff_ofSource hdepth hlength hnames)
  called source c hc name args hn :=
    NameMap.isSome_find?_iff.1 (Compiled.contains_of_helper_mem hc hn)

/-- After any history a registry holds names for helpers only, and what is done later makes more of
it by registrations. A registration binds its own name and no other, or it fails over a name and
leaves the session, or the world of the helper that tried, as it was. Within the limits the names
for helpers are the sources that call a helper of their own name, and those that compile are the
ones the registry holds. -/
theorem registries_hold_helper_names [CallStack] :
    (∀ (history : List Command) (id : String) (e : HostedEngine),
      (({} : Session).after history).engine? id = some e →
      HoldsHelperNames (({} : Session).after history) id e) ∧
    (∀ (call : String → List Value → World → Except HelperError Value × World) (name : String)
      (helper : Helper) (next : Except RegistryError PUnit → Action) (w : World),
      w.registry.Registering name helper
        (fun r => (Action.register name helper next).perform call w =
          (next (.ok ())).perform call { w with registry := r })
        ((Action.register name helper next).perform call w =
          (next (.error (.invalidName name))).perform call w)) ∧
    ∀ (limits : Limits) (name : String), 1 ≤ limits.maxDepth →
      byteLength name.toList ≤ limits.maxSourceLength →
      (isSigilName name = true ↔
        ∃ e, SourceExpr.ofSource limits name.toList = .ok e ∧ e.toNode = .ok (.helper name [])) :=
  ⟨fun history _ _ =>
      (registered_after history).holdsHelperNames (orderly_after history) (coherent_after history),
    Action.perform_register,
    fun _ _ hdepth hlength => SourceExpr.isSigilName_iff_ofSource hdepth hlength⟩

theorem registries_hold_helper_names_sample :
    ∃ (history later : List Command) (e e' : HostedEngine) (helper : Helper) (c : Compiled),
      let s := ({} : Session).after history
      let r := s.registry e.registry
      let r' := (s.after later).registry e'.registry
      s.engine? "a" = some e ∧ r.names = ["$f"] ∧ HoldsHelperNames s "a" e ∧
      (s.after later).engine? "a" = some e' ∧ r'.names = ["$f", "$g"] ∧ r.ExtendsTo r' ∧
      (s.stepOn "a" e (.register "f" helper)).2 = ([], s) ∧
      (s.stepOn "a" e (.add helper)).2 = ([], s) ∧
      r.Binds "$f" helper ((s.stepOn "a" e (.register "$f" helper)).2.2.registry e.registry) ∧
      e.engine.compile r "$f" = .ok c ∧ c.root = .helper "$f" [] ∧
      ("$f" ∈ r.names ↔ ∃ c, e.engine.compile r "$f" = .ok c ∧ c.root = .helper "$f" []) ∧
      (isSigilName "f" = true ↔
        ∃ e, SourceExpr.ofSource {} "f".toList = .ok e ∧ e.toNode = .ok (.helper "f" [])) := by
  let helper : Helper := .mk none fun _ => .finish (.ok .null)
  let body (_ : List Value) : Action :=
    .register "$g" helper fun _ => .finish (.error (.failed ""))
  let history : List Command :=
    [.create "a" .empty none, .act "a" (.register "$f" (.mk none body)),
      .act "a" (.register "f" helper), .act "a" (.add helper)]
  let later : List Command := [.act "a" (.runSource "$f()" (.ofValue .null)), .act "a" .forget]
  let e : HostedEngine := ⟨0, {}⟩
  let e' : HostedEngine := ⟨0, { made := 1 }⟩
  let c : Compiled := ⟨"$f", .helper "$f" [], ["$f"]⟩
  have he : (({} : Session).after history).engine? "a" = some e := rfl
  have he' : ((({} : Session).after history).after later).engine? "a" = some e' := rfl
  obtain ⟨along, -, names⟩ := registries_hold_helper_names
  have hholds := along history "a" e he
  obtain ⟨hextends, -⟩ := hholds.later later "a" e' he' rfl
  obtain ⟨r, hbinds, rfl, -⟩ :=
    (hholds.registering _ "$f" helper (.register "$f" helper)).binds rfl
  exact ⟨history, later, e, e', helper, c, he, rfl, hholds, he', rfl, hextends,
    hholds.failed (.register "f" helper) (.invalidName "f") rfl,
    hholds.failed (.add helper) .unnamed rfl, hbinds, rfl, rfl,
    hholds.callable (by decide) "$f" (by decide), names {} "f" (by decide) (by decide)⟩

end Session

end SigilExpr
