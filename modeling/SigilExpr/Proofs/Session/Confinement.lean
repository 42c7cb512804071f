import SigilExpr.Proofs.NameMap
import SigilExpr.Proofs.Session.History

/-!
# What a step leaves as it was

A step on an engine changes no registry but that of the engine, no engine but this one and no slot
but one that the step names. From this it follows that the slots of a session are in order, that its
engines stay on their registries, and that these exist, so that the registry of a new engine is NOT
that of any other, unless the engine is created to share it.
-/

set_option autoImplicit false

namespace SigilExpr

/-- The slot that a step names. -/
def Step.slot? : Step → Option String
  | .compile _ slot | .obtain _ slot | .runSlot slot _ => some slot
  | _ => none

namespace Session

variable {s t : Session} {id : String} {e : HostedEngine} {slot? : Option String} {n : Nat}

theorem registries_setRegistry_of_ne {number : Nat} (h : n ≠ number) (r : Registry) :
    (s.setRegistry number r).registries[n]? = s.registries[n]? :=
  List.getElem?_set_ne h.symm

/-- What a step on an engine leaves as it was: all registries but that of the engine, and all slots
but one that it names. -/
structure Confined (s : Session) (e : HostedEngine) (slot? : Option String) (t : Session) :
    Prop where
  registries : ∀ n, n ≠ e.registry → t.registries[n]? = s.registries[n]?
  length : t.registries.length = s.registries.length
  slots : t.slots = s.slots ∨
    ∃ slot ∈ slot?, ∃ shared, t.slots = NameMap.insert slot shared s.slots

namespace Confined

theorem refl (s : Session) (e : HostedEngine) (slot? : Option String) : s.Confined e slot? s :=
  ⟨fun _ _ => rfl, rfl, .inl rfl⟩

theorem setRegistry (h : s.Confined e slot? t) (r : Registry) :
    s.Confined e slot? (t.setRegistry e.registry r) := by
  refine ⟨?_, List.length_set.trans h.length, h.slots⟩
  intro n hn
  exact (registries_setRegistry_of_ne hn r).trans (h.registries n hn)

theorem setEngine (h : s.Confined e slot? t) (id : String) (f : HostedEngine) :
    s.Confined e slot? (t.setEngine id f) := ⟨h.registries, h.length, h.slots⟩

theorem setSlot (h : s.Confined e slot? t) {slot : String} (hslot : slot ∈ slot?)
    (hslots : t.slots = s.slots) (shared : Shared) :
    s.Confined e slot? (t.setSlot slot shared) :=
  ⟨h.registries, h.length, .inr ⟨slot, hslot, shared, congrArg (NameMap.insert slot shared) hslots⟩⟩

theorem settle (outcome : Registry → Outcome) (result : Except RegistryError Registry) :
    s.Confined e slot? (s.settle e.registry outcome result).2.2 := by
  cases result with
  | ok r => exact (refl s e slot?).setRegistry r
  | error error => exact refl s e slot?

theorem conclude (h : s.Confined e slot? t) (outcome : Outcome) (w : World) :
    s.Confined e slot? (t.conclude e.registry outcome w).2.2 := h.setRegistry w.registry

theorem inOrder (h : s.Confined e slot? t) (hs : NameMap.InOrder s.slots) :
    NameMap.InOrder t.slots := by
  rcases h.slots with heq | ⟨slot, -, shared, heq⟩
  · exact heq ▸ hs
  · exact heq ▸ hs.insert slot shared

end Confined

theorem stepOn_confined [CallStack] (s : Session) (id : String) (e : HostedEngine) (action : Step) :
    s.Confined e action.slot? (s.stepOn id e action).2.2 := by
  have hrefl : s.Confined e action.slot? s := .refl s e action.slot?
  cases action with
  | register name helper => exact .settle _ _
  | add helper => exact .settle _ _
  | «alias» name target =>
    rw [stepOn]
    split
    · exact hrefl
    · exact .settle _ _
  | inspect names => exact hrefl
  | invoke name args =>
    rw [stepOn]
    split <;> exact hrefl.conclude _ _
  | compile source slot =>
    rw [stepOn]
    split
    · exact hrefl
    · exact (hrefl.setEngine _ _).setSlot rfl rfl _
  | obtain source slot =>
    rw [stepOn]
    split
    · exact hrefl.setEngine _ _
    · exact (hrefl.setEngine _ _).setSlot rfl rfl _
  | runSlot slot context =>
    rw [stepOn]
    split
    · exact hrefl
    · split <;> exact hrefl.conclude _ _
  | runSource source context =>
    rw [stepOn]
    split <;> exact (hrefl.setEngine _ _).conclude _ _
  | forget => exact hrefl.setEngine _ _
  | wait => exact hrefl

theorem perform_act [CallStack] (he : s.engine? id = some e) (action : Step) :
    s.perform (.act id action) = s.stepOn id e action := by
  have he : NameMap.find? id s.engines = some e := he
  rw [perform, step, he]

/-- The slots are in order, and every engine has a registry of the session. -/
structure Orderly (s : Session) : Prop where
  slots : NameMap.InOrder s.slots
  registry_lt : ∀ ⦃id e⦄, s.engine? id = some e → e.registry < s.registries.length

theorem orderly_start : Orderly {} := by
  refine ⟨List.Pairwise.nil, ?_⟩
  intro id e he
  cases he

theorem Orderly.stepOn [CallStack] (h : s.Orderly) (he : s.engine? id = some e) (action : Step) :
    (s.stepOn id e action).2.2.Orderly := by
  have hconfined := stepOn_confined s id e action
  obtain ⟨engine, -, hengines⟩ := (stepOn_follows he action).engines
  refine ⟨hconfined.inOrder h.slots, ?_⟩
  intro id' f hf
  rw [hengines id'] at hf
  rw [hconfined.length]
  split at hf
  · obtain rfl := Option.some.inj hf
    have hlt := h.registry_lt he
    exact hlt
  · exact h.registry_lt hf

theorem Orderly.provide (h : s.Orderly) {source : RegistrySource} {number : Nat}
    {registries : List Registry} (hprovide : s.provide source = some (number, registries)) :
    number < registries.length ∧ s.registries.length ≤ registries.length := by
  cases source with
  | standard | empty =>
    cases hprovide
    simp
  | copyOf id' =>
    obtain ⟨e', -, hprovide⟩ := Option.bind_eq_some_iff.1 hprovide
    cases hprovide
    simp
  | sharedWith id' =>
    obtain ⟨e', he', hprovide⟩ := Option.bind_eq_some_iff.1 hprovide
    cases hprovide
    exact ⟨h.registry_lt he', Nat.le_refl _⟩

theorem Orderly.create (h : s.Orderly) (id : String) (source : RegistrySource)
    (options : Option Value) : (s.create id source options).2.Orderly := by
  unfold Session.create
  split
  · exact h
  · split
    · exact h
    · next number registries hprovide =>
      obtain ⟨hnumber, hlength⟩ := h.provide hprovide
      refine ⟨h.slots, ?_⟩
      intro id' f hf
      by_cases hid : id' = id
      · unfold engine? setEngine at hf
        rw [hid, NameMap.find?_insert_self] at hf
        obtain rfl := Option.some.inj hf
        exact hnumber
      · unfold engine? setEngine at hf
        rw [NameMap.find?_insert_of_ne hid] at hf
        exact Nat.lt_of_lt_of_le (h.registry_lt hf) hlength

theorem orderly_after [CallStack] (cs : List Command) : (({} : Session).after cs).Orderly := by
  have hafter : ∀ (cs : List Command) (s : Session), s.Orderly → (s.after cs).Orderly := by
    intro cs
    induction cs with
    | nil => exact fun _ h => h
    | cons c cs ih =>
      intro s h
      refine ih _ ?_
      cases c with
      | create id source options => exact h.create id source options
      | act id action =>
        cases he : s.engine? id with
        | none =>
          have he : NameMap.find? id s.engines = none := he
          rw [perform, step, he]
          exact h
        | some e =>
          rw [perform_act he]
          exact h.stepOn he action
  exact hafter cs {} orderly_start

/-- The engine of the name has the registry of the number. -/
def Hosts (s : Session) (id : String) (n : Nat) : Prop :=
  ∃ e, s.engine? id = some e ∧ e.registry = n

theorem Hosts.stepOn [CallStack] {id' : String} (h : s.Hosts id' n) (he : s.engine? id = some e)
    (action : Step) : (s.stepOn id e action).2.2.Hosts id' n := by
  obtain ⟨engine, -, hengines⟩ := (stepOn_follows he action).engines
  obtain ⟨f, hf, hn⟩ := h
  by_cases hid : id' = id
  · subst hid
    obtain rfl := Option.some.inj (hf.symm.trans he)
    exact ⟨{ f with engine }, by rw [hengines, if_pos rfl], hn⟩
  · exact ⟨f, by rw [hengines, if_neg hid, hf], hn⟩

/-- An engine with a copy of a registry has a registry of its own, with the same helpers. -/
theorem Orderly.copy (h : s.Orderly) {a b : String} (hab : a ≠ b) (he : s.engine? a = some e)
    {options : Option Value} {o : Engine.Options} (ho : decodeOptions options = some o) :
    let t := (s.create b (.copyOf a) options).2
    ∃ f, t.engine? a = some e ∧ t.engine? b = some f ∧ f.registry ≠ e.registry ∧
      t.registry f.registry = s.registry e.registry := by
  have hprovide : s.provide (.copyOf a) =
      some (s.registries.length, s.registries ++ [s.registry e.registry]) := by
    have he : NameMap.find? a s.engines = some e := he
    rw [Session.provide, he]
    rfl
  unfold Session.create
  rw [ho]
  dsimp only
  rw [hprovide]
  refine ⟨⟨s.registries.length, { number := s.engineCount, options := o }⟩, ?_, ?_, ?_, ?_⟩
  · exact (NameMap.find?_insert_of_ne hab _ _).trans he
  · exact NameMap.find?_insert_self _ _ _
  · exact Nat.ne_of_gt (h.registry_lt he)
  · simp [registry, setEngine]

end Session

end SigilExpr
