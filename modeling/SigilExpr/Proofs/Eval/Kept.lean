import SigilExpr.Eval.Run
import SigilExpr.Proofs.Node.Subtrees

/-!
# Properties of values that evaluation keeps

A property of values is kept if operations give values with it whenever they are given such values.
Then a tree whose constants have the property comes to a value with it and hands nothing else to
helpers, as long as the context and the helpers answer with such values.

Nothing is said about runs that fail.
-/

set_option autoImplicit false

namespace SigilExpr

/-- If there is a result, it has the property. -/
def Yields {ε α : Type} (P : α → Prop) (x : Except ε α) : Prop := ∀ ⦃a⦄, x = .ok a → P a

namespace Yields

variable {ε α β : Type} {P : α → Prop} {Q : β → Prop}

theorem ok {a : α} (h : P a) : Yields P (.ok a : Except ε α) := by
  rintro _ ⟨⟩
  exact h

theorem error (e : ε) : Yields P (.error e : Except ε α) := by
  rintro _ ⟨⟩

theorem bind {x : Except ε α} {f : α → Except ε β} (hx : Yields P x)
    (hf : ∀ a, P a → Yields Q (f a)) : Yields Q (x >>= f) := by
  cases x with
  | ok a => exact hf a (hx rfl)
  | error e => exact error e

theorem any (x : Except ε α) : Yields (fun _ => True) x := fun _ _ => trivial

theorem ite {p : Prop} [Decidable p] {x y : Except ε α} (hx : Yields P x) (hy : Yields P y) :
    Yields P (if p then x else y) := by
  split
  · exact hx
  · exact hy

end Yields

/-- A property of values that operations on values keep. -/
structure Value.Kept (P : Value → Prop) : Prop where
  null : P .null
  string (s : String) : P (.string s)
  array {items : List Value} : (∀ v ∈ items, P v) → P (.array items)
  unary {v : Value} (op : UnaryOp) : P v → Yields P (v.applyUnary op)
  binary {v w : Value} (op : BinaryOp) : P v → P w → Yields P (v.applyBinary op w)
  property {v k : Value} : P v → P k → Yields P (v.property k)
  call {v k : Value} {args : List Value} : P v → P k → (∀ a ∈ args, P a) → Yields P (v.call k args)

namespace Run

variable {α β : Type} {P : Value → Prop} {Q : α → Prop} {R : β → Prop}

/-- As long as it is answered with values that have the property, the run passes on no others and
comes to a result with the second one. -/
def Keeps (P : Value → Prop) (Q : α → Prop) : Run α → Prop
  | .done x => Yields Q x
  | .read _ next => ∀ v : Option Value, (∀ a ∈ v, P a) → (next v).Keeps P Q
  | .readRoot next => ∀ v, P v → (next v).Keeps P Q
  | .call _ args next =>
    (∀ a ∈ args, P a) ∧ ∀ reply : Reply, Yields P reply → (next reply).Keeps P Q

namespace Keeps

theorem bind {f : α → Run β} (hf : ∀ a, Q a → (f a).Keeps P R) :
    {r : Run α} → r.Keeps P Q → (r >>= f).Keeps P R
  | .done (.ok a), h => hf a (h rfl)
  | .done (.error e), _ => Yields.error e
  | .read _ _, h => fun v hv => bind hf (h v hv)
  | .readRoot _, h => fun v hv => bind hf (h v hv)
  | .call _ _ _, h => ⟨h.1, fun reply hreply => bind hf (h.2 reply hreply)⟩

theorem pure {a : α} (h : Q a) : (Pure.pure a : Run α).Keeps P Q := Yields.ok h

theorem callHelper {args : List Value} (h : ∀ a ∈ args, P a) (name : String) :
    (Run.callHelper name args).Keeps P P := by
  refine ⟨h, ?_⟩
  intro reply hreply
  rcases reply with (_ | cause) | v
  · exact Yields.error _
  · exact Yields.error _
  · exact Yields.ok (hreply rfl)

end Keeps

end Run

namespace Node

variable {P : Value → Prop}

mutual

/-- The run of a tree keeps what operations keep, if the constants in the tree have it. -/
theorem run_keeps (hP : Value.Kept P) : (n : Node) → (∀ v, .const v ∈ n.nodes → P v) →
    n.run.Keeps P P
  | .const v, h => Yields.ok (h v (List.mem_singleton.2 rfl))
  | .contextRoot, _ => fun v hv => Yields.ok hv
  | .contextRead name, _ => by
    intro v hv
    cases v with
    | none => exact Yields.ok hP.null
    | some v => exact Yields.ok (hv v rfl)
  | .helper name args, h => by
    have hargs := runAll_keeps hP args fun v hv => h v (List.mem_append_left _ hv)
    apply hargs.bind
    intro vs hvs
    exact .callHelper hvs name
  | .unary op e, h => by
    have he := run_keeps hP e fun v hv => h v (List.mem_append_left _ hv)
    apply he.bind
    intro v hv
    exact hP.unary op hv
  | .binary op l r, h => by
    simp only [nodes, List.mem_append] at h
    have hl := run_keeps hP l fun v hv => h v (.inl hv)
    have hr := run_keeps hP r fun v hv => h v (.inr (.inl hv))
    apply hl.bind
    intro v hv
    apply hr.bind
    intro w hw
    exact hP.binary op hv hw
  | .logical op l r, h => by
    simp only [nodes, List.mem_append] at h
    have hl := run_keeps hP l fun v hv => h v (.inl hv)
    have hr := run_keeps hP r fun v hv => h v (.inr (.inl hv))
    apply hl.bind
    intro v hv
    split
    · exact .pure hv
    · exact hr
  | .conditional t a b, h => by
    simp only [nodes, List.mem_append] at h
    have ht := run_keeps hP t fun v hv => h v (.inl hv)
    have ha := run_keeps hP a fun v hv => h v (.inr (.inl hv))
    have hb := run_keeps hP b fun v hv => h v (.inr (.inr (.inl hv)))
    apply ht.bind
    intro v _
    split
    · exact ha
    · exact hb
  | .member o name, h => by
    have ho := run_keeps hP o fun v hv => h v (List.mem_append_left _ hv)
    apply ho.bind
    intro v hv
    exact hP.property hv (hP.string name)
  | .index o k, h => by
    simp only [nodes, List.mem_append] at h
    have ho := run_keeps hP o fun v hv => h v (.inl hv)
    have hk := run_keeps hP k fun v hv => h v (.inr (.inl hv))
    apply ho.bind
    intro v hv
    apply hk.bind
    intro w hw
    exact hP.property hv hw
  | .method o name args, h => by
    simp only [nodes, List.mem_append] at h
    have ho := run_keeps hP o fun v hv => h v (.inl hv)
    have hargs := runAll_keeps hP args fun v hv => h v (.inr (.inl hv))
    apply ho.bind
    intro v hv
    apply hargs.bind
    intro vs hvs
    exact hP.call hv (hP.string name) hvs
  | .methodAt o k args, h => by
    simp only [nodes, List.mem_append] at h
    have ho := run_keeps hP o fun v hv => h v (.inl hv)
    have hk := run_keeps hP k fun v hv => h v (.inr (.inl hv))
    have hargs := runAll_keeps hP args fun v hv => h v (.inr (.inr (.inl hv)))
    apply ho.bind
    intro v hv
    apply hk.bind
    intro w hw
    apply hargs.bind
    intro vs hvs
    exact hP.call hv hw hvs
  | .callValue f args, h => by
    simp only [nodes, List.mem_append] at h
    have hf := run_keeps hP f fun v hv => h v (.inl hv)
    have hargs := runAll_keeps hP args fun v hv => h v (.inr (.inl hv))
    apply hf.bind
    intro v _
    apply hargs.bind
    intro vs _
    exact Yields.error _
  | .array items, h => by
    have hitems := runAll_keeps hP items fun v hv => h v (List.mem_append_left _ hv)
    apply hitems.bind
    intro vs hvs
    exact .pure (hP.array hvs)

theorem runAll_keeps (hP : Value.Kept P) : (ns : List Node) →
    (∀ v, .const v ∈ nodesAll ns → P v) → (runAll ns).Keeps P fun vs => ∀ v ∈ vs, P v
  | [], _ => .pure fun _ h => by cases h
  | n :: ns, h => by
    simp only [nodesAll, List.mem_append] at h
    have hn := run_keeps hP n fun v hv => h v (.inl hv)
    have hns := runAll_keeps hP ns fun v hv => h v (.inr hv)
    apply hn.bind
    intro v hv
    apply hns.bind
    intro vs hvs
    exact .pure (List.forall_mem_cons.2 ⟨hv, hvs⟩)

end

end Node

end SigilExpr
