import Mathlib.Data.List.Forall2
import SigilExpr.Proofs.NameMap
import SigilExpr.Proofs.Session.Coherence

/-!
# Keeping is not observed

Two sessions are alike if they differ only in what their engines keep and in which objects stand in
their slots. Coherent sessions that are alike give the same answers to the same commands and stay
alike, so whether engines keep what they compile is not observed.

Two things are NOT compared, for they do tell: how many expressions an engine keeps, and which slots
hold one object.
-/

set_option autoImplicit false

namespace SigilExpr

/-- What an engine compiles with: the number of its registry, and its limits. -/
def HostedEngine.terms (e : HostedEngine) : Nat × Limits := (e.registry, e.engine.options.limits)

/-- An outcome apart from whether an engine keeps what it compiles and which slots hold one object. -/
def Outcome.apartFromKeeping : Outcome → Outcome
  | .created options names => .created { options with keepsCompiled := true } names
  | .obtained c _ => .obtained c []
  | outcome => outcome

namespace Session

/-- The slots with what is in them, whichever objects these are. -/
def compiledSlots (s : Session) : List (String × Compiled) :=
  s.slots.map fun slot => (slot.1, slot.2.compiled)

/-- The sessions differ only in what engines keep and in which objects stand in slots. -/
structure Alike (s t : Session) : Prop where
  registries : s.registries = t.registries
  engines : ∀ id, (s.engine? id).map HostedEngine.terms = (t.engine? id).map HostedEngine.terms
  slots : s.compiledSlots = t.compiledSlots

/-- The answers agree apart from keeping, and so do the sessions after them. -/
structure AlikeAnswers (x y : Outcome × List Event × Session) : Prop where
  outcome : x.1.apartFromKeeping = y.1.apartFromKeeping
  events : x.2.1 = y.2.1
  session : x.2.2.Alike y.2.2

variable {s t : Session} {id : String} {e f : HostedEngine}

namespace Alike

theorem refl (s : Session) : s.Alike s := ⟨rfl, fun _ => rfl, rfl⟩

theorem registry_eq (h : s.Alike t) (n : Nat) : s.registry n = t.registry n := by
  rw [registry, registry, h.registries]

theorem setRegistry (h : s.Alike t) (number : Nat) (r : Registry) :
    (s.setRegistry number r).Alike (t.setRegistry number r) :=
  ⟨congrArg (List.set · number r) h.registries, h.engines, h.slots⟩

theorem setEngine (h : s.Alike t) (id : String) (hterms : e.terms = f.terms) :
    (s.setEngine id e).Alike (t.setEngine id f) := by
  refine ⟨h.registries, ?_, h.slots⟩
  intro id'
  unfold engine? Session.setEngine
  by_cases hid : id' = id
  · rw [hid, NameMap.find?_insert_self, NameMap.find?_insert_self, Option.map_some,
      Option.map_some, hterms]
  · rw [NameMap.find?_insert_of_ne hid, NameMap.find?_insert_of_ne hid]
    exact h.engines id'

theorem setSlot (h : s.Alike t) (slot : String) {a b : Shared} (hab : a.compiled = b.compiled) :
    (s.setSlot slot a).Alike (t.setSlot slot b) := by
  refine ⟨h.registries, h.engines, ?_⟩
  have hslots := h.slots
  unfold compiledSlots Session.setSlot at *
  rw [NameMap.insert_map Shared.compiled, NameMap.insert_map Shared.compiled, hslots, hab]

theorem settle (h : s.Alike t) (number : Nat) (outcome : Registry → Outcome)
    (result : Except RegistryError Registry) :
    AlikeAnswers (s.settle number outcome result) (t.settle number outcome result) := by
  cases result with
  | ok r => exact ⟨rfl, rfl, h.setRegistry number r⟩
  | error error => exact ⟨rfl, rfl, h⟩

theorem conclude (h : s.Alike t) (number : Nat) (outcome : Outcome) (w : World) :
    AlikeAnswers (s.conclude number outcome w) (t.conclude number outcome w) :=
  ⟨rfl, rfl, h.setRegistry number w.registry⟩

theorem slot_eq (h : s.Alike t) (slot : String) :
    (NameMap.find? slot s.slots).map Shared.compiled =
      (NameMap.find? slot t.slots).map Shared.compiled := by
  rw [← NameMap.find?_map, ← NameMap.find?_map]
  exact congrArg (NameMap.find? slot) h.slots

theorem slotsWith_eq (h : s.Alike t) (test : Compiled → Bool) :
    s.slotsWith (fun shared => test shared.compiled) =
      t.slotsWith (fun shared => test shared.compiled) := by
  have hnames : ∀ u : Session, u.slotsWith (fun shared => test shared.compiled) =
      NameMap.names (u.compiledSlots.filter fun slot => test slot.2) := by
    intro u
    rw [slotsWith, compiledSlots, List.filter_map, NameMap.names, NameMap.names, List.map_map]
    rfl
  rw [hnames, hnames, h.slots]

/-- The engines of a name in two sessions that are alike: none, or two with the same terms. -/
theorem engine?_cases (h : s.Alike t) (id : String) :
    (s.engine? id = none ∧ t.engine? id = none) ∨
      ∃ e f, s.engine? id = some e ∧ t.engine? id = some f ∧ e.terms = f.terms := by
  have heq := h.engines id
  cases hs : s.engine? id with
  | none =>
    rw [hs] at heq
    exact .inl ⟨rfl, Option.map_eq_none_iff.1 heq.symm⟩
  | some e =>
    rw [hs] at heq
    obtain ⟨f, hf, hterms⟩ := Option.map_eq_some_iff.1 heq.symm
    exact .inr ⟨e, f, rfl, hf, hterms.symm⟩

theorem provide_eq (h : s.Alike t) (source : RegistrySource) : s.provide source = t.provide source := by
  cases source with
  | standard | empty => rw [provide, provide, h.registries]
  | copyOf id' =>
    rcases h.engine?_cases id' with ⟨hs, ht⟩ | ⟨e, f, hs, ht, hterms⟩
    · rw [engine?] at hs ht
      rw [provide, provide, hs, ht]
      rfl
    · rw [engine?] at hs ht
      have hnumber : e.registry = f.registry := congrArg Prod.fst hterms
      rw [provide, provide, hs, ht]
      simp only [Option.bind_eq_bind, Option.bind_some, hnumber, h.registry_eq, h.registries]
  | sharedWith id' =>
    rcases h.engine?_cases id' with ⟨hs, ht⟩ | ⟨e, f, hs, ht, hterms⟩
    · rw [engine?] at hs ht
      rw [provide, provide, hs, ht]
      rfl
    · rw [engine?] at hs ht
      have hnumber : e.registry = f.registry := congrArg Prod.fst hterms
      rw [provide, provide, hs, ht]
      simp only [Option.bind_eq_bind, Option.bind_some, hnumber, h.registries]

end Alike

end Session

end SigilExpr
