import SigilExpr.Eval.Perform
import SigilExpr.Proofs.Eval.Kept

/-!
# Helpers that keep a property of values

A registry keeps a property of values if calls with values that have it give values that have it,
now and after any such calls, for a helper may register others. It is enough that every helper
keeps the property, in what it gives, in what it hands to others and in the helpers it registers.

A run that keeps the property keeps it in the world of such a registry.
-/

set_option autoImplicit false

namespace SigilExpr

mutual

/-- Called with values that have the property, the helper gives such a value. -/
def Helper.Keeps (P : Value → Prop) : Helper → Prop
  | .mk _ body => ∀ args, (∀ a ∈ args, P a) → (body args).Keeps P

/-- What a helper does gives a value with the property, if the helpers that it calls do. -/
def Action.Keeps (P : Value → Prop) : Action → Prop
  | .finish x => Yields P x
  | .note _ next => next.Keeps P
  | .names next => ∀ names, (next names).Keeps P
  | .register _ helper next => helper.Keeps P ∧ ∀ x, (next x).Keeps P
  | .invoke _ args next => (∀ a ∈ args, P a) ∧ ∀ x, Yields P x → (next x).Keeps P

end

/-- What a registry may become by calls with values that have the property. -/
inductive Registry.Becomes (P : Value → Prop) (r : Registry) : Registry → Prop where
  | refl : r.Becomes P r
  | call {w : World} (h : r.Becomes P w.registry) (name : String) {args : List Value}
      (hargs : ∀ a ∈ args, P a) : r.Becomes P (w.call name args).2.registry

/-- Calls with values that have the property give such values, whatever such calls came before. -/
def Registry.Keeps (P : Value → Prop) (r : Registry) : Prop :=
  ∀ ⦃w : World⦄, r.Becomes P w.registry → ∀ name args, (∀ a ∈ args, P a) →
    Yields P (w.call name args).1

namespace Registry

variable {P : Value → Prop} {r s t : Registry}

theorem Becomes.trans (hrs : r.Becomes P s) (hst : s.Becomes P t) : r.Becomes P t := by
  induction hst with
  | refl => exact hrs
  | call _ name hargs ih => exact ih.call name hargs

theorem Keeps.becomes (h : r.Keeps P) (hrs : r.Becomes P s) : s.Keeps P :=
  fun _ hst => h (hrs.trans hst)

/-- All helpers of a registry keep the property. -/
def HelpersKeep (P : Value → Prop) (r : Registry) : Prop :=
  ∀ ⦃name h⦄, r.find? name = some h → h.Keeps P

theorem HelpersKeep.register {name : String} {h : Helper} (hr : r.HelpersKeep P) (hh : h.Keeps P)
    (hs : r.register name h = .ok s) : s.HelpersKeep P := by
  intro m g hg
  unfold Registry.register at hs
  split at hs
  · obtain rfl := Except.ok.inj hs
    unfold find? at hg
    by_cases hm : m = name
    · rw [hm, NameMap.find?_insert_self] at hg
      obtain rfl := Option.some.inj hg
      exact hh
    · rw [NameMap.find?_insert_of_ne hm] at hg
      exact hr hg
  · cases hs

end Registry

section

variable {P : Value → Prop}

/-- A call keeps the property if all helpers of the registry do, and they still do afterwards. -/
def CallKeeps (P : Value → Prop)
    (call : String → List Value → World → Except HelperError Value × World) : Prop :=
  ∀ name args w, (∀ a ∈ args, P a) → w.registry.HelpersKeep P →
    Yields P (call name args w).1 ∧ (call name args w).2.registry.HelpersKeep P

theorem Action.Keeps.perform {call : String → List Value → World → Except HelperError Value × World}
    (hcall : CallKeeps P call) :
    (a : Action) → a.Keeps P → ∀ w, w.registry.HelpersKeep P →
      Yields P (a.perform call w).1 ∧ (a.perform call w).2.registry.HelpersKeep P
  | .finish _, ha, _, hw => ⟨ha, hw⟩
  | .note event next, ha, w, hw => perform hcall next ha (w.note event) hw
  | .names next, ha, w, hw => perform hcall (next w.registry.names) (ha _) w hw
  | .register name helper next, ha, w, hw => by
    obtain ⟨hhelper, hnext⟩ := ha
    rw [Action.perform]
    split
    · next r hr =>
      exact perform hcall (next (.ok ())) (hnext _) { w with registry := r }
        (hw.register hhelper hr)
    · exact perform hcall _ (hnext _) w hw
  | .invoke name args next, ha, w, hw => by
    obtain ⟨hargs, hnext⟩ := ha
    obtain ⟨hresult, hregistry⟩ := hcall name args w hargs hw
    exact perform hcall (next (call name args w).1) (hnext _ hresult) _ hregistry

theorem Helper.Keeps.body {h : Helper} (hh : h.Keeps P) {args : List Value}
    (hargs : ∀ a ∈ args, P a) : (h.body args).Keeps P := by
  cases h with
  | mk name body => exact hh args hargs

namespace World

theorem invokeWithin_keeps (depth : Nat) : CallKeeps P (invokeWithin depth) := by
  induction depth with
  | zero => exact fun name args w _ hw => ⟨.error _, hw⟩
  | succ depth ih =>
    intro name args w hargs hw
    rw [invokeWithin]
    split
    · exact ⟨.error _, hw⟩
    · next h hfind => exact Action.Keeps.perform ih _ ((hw hfind).body hargs) w hw

theorem invoke_keeps : CallKeeps P invoke :=
  fun name args w => invokeWithin_keeps w.stack.depth name args w

theorem call_keeps {name : String} {args : List Value} {w : World} (hargs : ∀ a ∈ args, P a)
    (hw : w.registry.HelpersKeep P) :
    Yields P (call name args w).1 ∧ (call name args w).2.registry.HelpersKeep P := by
  unfold call
  split
  · exact ⟨.error _, hw⟩
  · next h hfind =>
    have hperform := Action.Keeps.perform invoke_keeps _ ((hw hfind).body hargs) w hw
    split
    · next heq =>
      rw [heq] at hperform
      exact ⟨.ok (hperform.1 rfl), hperform.2⟩
    · next heq =>
      rw [heq] at hperform
      exact ⟨.error _, hperform.2⟩

end World

/-- Helpers that keep the property make a registry that does. -/
theorem Registry.HelpersKeep.keeps {r : Registry} (h : r.HelpersKeep P) : r.Keeps P := by
  have hbecomes : ∀ ⦃s⦄, r.Becomes P s → s.HelpersKeep P := by
    intro s hs
    induction hs with
    | refl => exact h
    | call _ name hargs ih => exact (World.call_keeps hargs ih).2
  intro w hw name args hargs
  exact (World.call_keeps hargs (hbecomes hw)).1

/-- All that a context holds has the property. -/
structure Context.Holds (P : Value → Prop) (context : Context) : Prop where
  get ⦃name : String⦄ ⦃v : Value⦄ : context.get name = some v → P v
  root : P context.root

/-- By induction on the run. The registry changes on the way, but it only becomes what calls with
the property make of it. -/
theorem Run.Keeps.perform {α : Type} {Q : α → Prop} {context : Context} {r : Run α}
    (hr : r.Keeps P Q) (hcontext : context.Holds P) (w : World) (hw : w.registry.Keeps P) :
    Yields Q (r.perform context w).1 := by
  induction r generalizing w with
  | done x => exact hr
  | read name next ih => exact ih _ (hr _ fun _ hv => hcontext.get hv) (w.note (.read name)) hw
  | readRoot next ih => exact ih _ (hr _ hcontext.root) (w.note .readRoot) hw
  | call name args next ih =>
    obtain ⟨hargs, hnext⟩ := hr
    have hreply : Yields P (w.call name args).1 := hw .refl name args hargs
    have hbecomes : w.registry.Becomes P (w.call name args).2.registry :=
      Registry.Becomes.refl.call name hargs
    exact ih _ (hnext _ hreply) _ (hw.becomes hbecomes)

end

end SigilExpr
