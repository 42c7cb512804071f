import SigilExpr.Eval.Run
import SigilExpr.Proofs.Node.Subtrees
import SigilExpr.Proofs.Value.Faults

/-!
# Properties of the run of a tree

The run of a tree is put together from the steps of its nodes by going on with values. So a property
that is kept by going on, and that operations on values have, holds of the run of a tree as soon as
it holds of the reads, calls and operators at its nodes.
-/

set_option autoImplicit false

namespace SigilExpr

/-- A property of runs that operations on values have and that going on with a value keeps. -/
structure Run.Closed (P : {α : Type} → Run α → Prop) : Prop where
  overValues {α : Type} {x : Except RuntimeError α} : FailsOverValues x → P (.done x)
  bind {α β : Type} {r : Run α} {f : α → Run β} : P r → (∀ a, P (f a)) → P (r >>= f)

namespace Node

/-- The property holds of what a node does by itself, whatever the values of the nodes below it. -/
def StepHas (P : {α : Type} → Run α → Prop) : Node → Prop
  | .contextRoot => P (.readRoot fun v => .done (.ok v))
  | .contextRead name => P (.read name fun v => .done (.ok (v.getD .null)))
  | .helper name _ => ∀ args, P (Run.callHelper name args)
  | .unary op _ => ∀ v : Value, P (.done (v.applyUnary op))
  | .binary op _ _ => ∀ v w : Value, P (.done (v.applyBinary op w))
  | _ => True

variable {P : {α : Type} → Run α → Prop}

mutual

theorem run_has (hP : Run.Closed P) : (n : Node) → (∀ m ∈ n.nodes, m.StepHas P) → P n.run
  | .const v, _ => hP.overValues (.ok v)
  | .contextRoot, h => h _ (List.mem_singleton.2 rfl)
  | .contextRead _, h => h _ (List.mem_singleton.2 rfl)
  | .helper name args, h => by
    simp only [nodes, List.forall_mem_append, List.forall_mem_singleton] at h
    obtain ⟨hargs, hcall⟩ := h
    exact hP.bind (runAll_has hP args hargs) hcall
  | .unary op e, h => by
    simp only [nodes, List.forall_mem_append, List.forall_mem_singleton] at h
    obtain ⟨he, hop⟩ := h
    exact hP.bind (run_has hP e he) hop
  | .binary op l r, h => by
    simp only [nodes, List.forall_mem_append, List.forall_mem_singleton] at h
    obtain ⟨hl, hr, hop⟩ := h
    apply hP.bind (run_has hP l hl)
    intro v
    exact hP.bind (run_has hP r hr) (hop v)
  | .logical op l r, h => by
    simp only [nodes, List.forall_mem_append] at h
    obtain ⟨hl, hr, -⟩ := h
    apply hP.bind (run_has hP l hl)
    intro v
    split
    · exact hP.overValues (.ok v)
    · exact run_has hP r hr
  | .conditional t a b, h => by
    simp only [nodes, List.forall_mem_append] at h
    obtain ⟨ht, ha, hb, -⟩ := h
    apply hP.bind (run_has hP t ht)
    intro v
    split
    · exact run_has hP a ha
    · exact run_has hP b hb
  | .member o name, h => by
    simp only [nodes, List.forall_mem_append] at h
    apply hP.bind (run_has hP o h.1)
    intro v
    exact hP.overValues (v.failsOverValues_property (.string name))
  | .index o k, h => by
    simp only [nodes, List.forall_mem_append] at h
    obtain ⟨ho, hk, -⟩ := h
    apply hP.bind (run_has hP o ho)
    intro v
    apply hP.bind (run_has hP k hk)
    intro w
    exact hP.overValues (v.failsOverValues_property w)
  | .method o name args, h => by
    simp only [nodes, List.forall_mem_append] at h
    obtain ⟨ho, hargs, -⟩ := h
    apply hP.bind (run_has hP o ho)
    intro v
    apply hP.bind (runAll_has hP args hargs)
    intro vs
    exact hP.overValues (v.failsOverValues_call (.string name) vs)
  | .methodAt o k args, h => by
    simp only [nodes, List.forall_mem_append] at h
    obtain ⟨ho, hk, hargs, -⟩ := h
    apply hP.bind (run_has hP o ho)
    intro v
    apply hP.bind (run_has hP k hk)
    intro w
    apply hP.bind (runAll_has hP args hargs)
    intro vs
    exact hP.overValues (v.failsOverValues_call w vs)
  | .callValue f args, h => by
    simp only [nodes, List.forall_mem_append] at h
    obtain ⟨hf, hargs, -⟩ := h
    apply hP.bind (run_has hP f hf)
    intro v
    apply hP.bind (runAll_has hP args hargs)
    intro vs
    exact hP.overValues (.error rfl)
  | .array items, h => by
    simp only [nodes, List.forall_mem_append] at h
    apply hP.bind (runAll_has hP items h.1)
    intro vs
    exact hP.overValues (.ok (Value.array vs))

theorem runAll_has (hP : Run.Closed P) :
    (ns : List Node) → (∀ m ∈ nodesAll ns, m.StepHas P) → P (runAll ns)
  | [], _ => hP.overValues (.ok [])
  | n :: ns, h => by
    simp only [nodesAll, List.forall_mem_append] at h
    obtain ⟨hn, hns⟩ := h
    apply hP.bind (run_has hP n hn)
    intro v
    apply hP.bind (runAll_has hP ns hns)
    intro vs
    exact hP.overValues (.ok (v :: vs))

end

end Node

end SigilExpr
