import SigilExpr.Eval.Perform

/-!
# Registries only grow

No helper is ever removed. Whatever a helper does when it is called, and whatever a run does, the
registry afterwards is what registrations make of the registry before. So the names that were
registered before are registered afterwards. Which helper a name stands for may change on the way.
-/

set_option autoImplicit false

namespace SigilExpr

namespace Registry

/-- Every name of a registry is a name of another. -/
def GrowsTo (r s : Registry) : Prop := ∀ ⦃name⦄, r.contains name = true → s.contains name = true

namespace GrowsTo

variable {r s t : Registry}

theorem refl (r : Registry) : r.GrowsTo r := fun _ h => h

theorem trans (h : r.GrowsTo s) (h' : s.GrowsTo t) : r.GrowsTo t := fun _ hr => h' (h hr)

theorem of_empty (r : Registry) : empty.GrowsTo r := by
  intro name h
  cases h

theorem of_names_subset (h : r.names ⊆ s.names) : r.GrowsTo s :=
  fun _ hname => NameMap.isSome_find?_iff.2 (h (NameMap.isSome_find?_iff.1 hname))

theorem register {name : String} {h : Helper} (hs : r.register name h = .ok s) : r.GrowsTo s := by
  intro m hm
  unfold Registry.register at hs
  split at hs
  · obtain rfl := Except.ok.inj hs
    unfold contains find? at hm ⊢
    by_cases hname : m = name
    · rw [hname, NameMap.find?_insert_self]
      rfl
    · rw [NameMap.find?_insert_of_ne hname]
      exact hm
  · cases hs

end GrowsTo

/-- What registrations, one after the other, make of a registry. -/
inductive ExtendsTo (r : Registry) : Registry → Prop where
  | refl : r.ExtendsTo r
  | register {s t : Registry} {name : String} {h : Helper} :
      r.ExtendsTo s → s.register name h = .ok t → r.ExtendsTo t

namespace ExtendsTo

variable {r s t : Registry}

theorem single {name : String} {h : Helper} (hs : r.register name h = .ok s) : r.ExtendsTo s :=
  .register .refl hs

theorem add {h : Helper} (hs : r.add h = .ok s) : r.ExtendsTo s := by
  unfold Registry.add at hs
  split at hs
  · exact single hs
  · cases hs

theorem trans (hrs : r.ExtendsTo s) (hst : s.ExtendsTo t) : r.ExtendsTo t := by
  induction hst with
  | refl => exact hrs
  | register _ ht ih => exact ih.register ht

theorem growsTo (h : r.ExtendsTo s) : r.GrowsTo s := by
  induction h with
  | refl => exact .refl r
  | register _ ht ih => exact ih.trans (.register ht)

end ExtendsTo

theorem GrowsTo.add {r s : Registry} {h : Helper} (hs : r.add h = .ok s) : r.GrowsTo s :=
  (ExtendsTo.add hs).growsTo

end Registry

/-- What was registered in a world before a computation is registered after it. -/
def World.Grows {α : Type} (f : World → α × World) : Prop :=
  ∀ w : World, w.registry.GrowsTo (f w).2.registry

/-- The registry after a computation is what registrations make of the registry before it. -/
def World.Extends {α : Type} (f : World → α × World) : Prop :=
  ∀ w : World, w.registry.ExtendsTo (f w).2.registry

theorem World.Extends.grows {α : Type} {f : World → α × World} (h : World.Extends f) :
    World.Grows f := fun w => (h w).growsTo

section

variable {call : String → List Value → World → Except HelperError Value × World}

theorem Action.perform_extends (hcall : ∀ name args, World.Extends (call name args)) :
    (a : Action) → World.Extends (a.perform call)
  | .finish _ => fun _ => .refl
  | .note event next => fun w => perform_extends hcall next (w.note event)
  | .names next => fun w => perform_extends hcall (next w.registry.names) w
  | .register name helper next => by
    intro w
    rw [Action.perform]
    split
    · next r hr =>
      have hnext := perform_extends hcall (next (.ok ())) { w with registry := r }
      exact (Registry.ExtendsTo.single hr).trans hnext
    · exact perform_extends hcall _ w
  | .invoke name args next => fun w =>
    (hcall name args w).trans (perform_extends hcall (next (call name args w).1) _)

end

namespace World

/-- By induction on how many calls may be nested: what a helper does is done with one call fewer. -/
theorem invokeWithin_extends (depth : Nat) (name : String) (args : List Value) :
    Extends (invokeWithin depth name args) := by
  induction depth generalizing name args with
  | zero => exact fun _ => .refl
  | succ depth ih =>
    intro w
    rw [invokeWithin]
    split
    · exact .refl
    · next h _ => exact Action.perform_extends ih (h.body args) w

theorem invoke_extends (name : String) (args : List Value) : Extends (invoke name args) :=
  fun w => invokeWithin_extends w.stack.depth name args w

theorem invoke_grows (name : String) (args : List Value) : Grows (invoke name args) :=
  (invoke_extends name args).grows

theorem call_extends (name : String) (args : List Value) : Extends (call name args) := by
  intro w
  unfold call
  split
  · exact .refl
  · next h _ =>
    have hextends := Action.perform_extends invoke_extends (h.body args) w
    split
    · next heq => simpa only [heq] using hextends
    · next heq => simpa only [heq] using hextends

theorem call_grows (name : String) (args : List Value) : Grows (call name args) :=
  (call_extends name args).grows

/-- The call of a registered helper gets an answer from the helper, be it a value or an error. -/
theorem call_ne_missing {name : String} {w : World} (h : w.registry.contains name = true)
    (args : List Value) : (w.call name args).1 ≠ .error .missing := by
  obtain ⟨helper, hfind⟩ := Option.isSome_iff_exists.1 h
  intro hmissing
  rw [call, hfind] at hmissing
  dsimp only at hmissing
  split at hmissing
  · cases hmissing
  · cases hmissing

end World

theorem Run.perform_extends {α : Type} (context : Context) :
    (r : Run α) → World.Extends (r.perform context)
  | .done _ => fun _ => .refl
  | .read name next => fun w =>
    perform_extends context (next (context.get name)) (w.note (.read name))
  | .readRoot next => fun w => perform_extends context (next context.root) (w.note .readRoot)
  | .call name args next => fun w =>
    (World.call_extends name args w).trans
      (perform_extends context (next (w.call name args).1) (w.call name args).2)

end SigilExpr
