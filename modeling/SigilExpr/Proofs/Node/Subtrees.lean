import SigilExpr.Node.Basic

/-!
# The nodes of a compiled tree

The nodes of a tree stand in the order in which they come to a value: a node after the nodes below
it, and these from the left.
-/

set_option autoImplicit false

namespace SigilExpr.Node

def children : Node → List Node
  | .const _ | .contextRoot | .contextRead _ => []
  | .unary _ e => [e]
  | .binary _ l r | .logical _ l r => [l, r]
  | .conditional t a b => [t, a, b]
  | .member o _ => [o]
  | .index o k => [o, k]
  | .method o _ args => o :: args
  | .methodAt o k args => o :: k :: args
  | .callValue f args => f :: args
  | .helper _ nodes | .array nodes => nodes

mutual

def nodes : Node → List Node
  | .const v => [.const v]
  | .contextRoot => [.contextRoot]
  | .contextRead name => [.contextRead name]
  | .helper name args => nodesAll args ++ [.helper name args]
  | .unary op e => nodes e ++ [.unary op e]
  | .binary op l r => nodes l ++ (nodes r ++ [.binary op l r])
  | .logical op l r => nodes l ++ (nodes r ++ [.logical op l r])
  | .conditional t a b => nodes t ++ (nodes a ++ (nodes b ++ [.conditional t a b]))
  | .member o name => nodes o ++ [.member o name]
  | .index o k => nodes o ++ (nodes k ++ [.index o k])
  | .method o name args => nodes o ++ (nodesAll args ++ [.method o name args])
  | .methodAt o k args => nodes o ++ (nodes k ++ (nodesAll args ++ [.methodAt o k args]))
  | .callValue f args => nodes f ++ (nodesAll args ++ [.callValue f args])
  | .array items => nodesAll items ++ [.array items]

def nodesAll : List Node → List Node
  | [] => []
  | n :: ns => nodes n ++ nodesAll ns

end

theorem nodesAll_eq_flatMap (ns : List Node) : nodesAll ns = ns.flatMap nodes := by
  induction ns with
  | nil => rfl
  | cons n ns ih => rw [nodesAll, ih, List.flatMap_cons]

theorem nodes_eq_concat (n : Node) : n.nodes = n.children.flatMap nodes ++ [n] := by
  cases n <;> simp [nodes, children, nodesAll_eq_flatMap]

theorem self_mem_nodes (n : Node) : n ∈ n.nodes := by
  rw [nodes_eq_concat]
  exact List.mem_append_right _ List.mem_cons_self

theorem sizeOf_lt_of_mem_children {n c : Node} (h : c ∈ n.children) : sizeOf c < sizeOf n := by
  cases n with
  | const v | contextRead name | contextRoot => cases h
  | helper name args | array args =>
    have hc : c ∈ args := h
    have hlt := List.sizeOf_lt_of_mem hc
    simp only [helper.sizeOf_spec, array.sizeOf_spec]
    omega
  | method f name args | callValue f args =>
    have hc : c ∈ f :: args := h
    have hlt := List.sizeOf_lt_of_mem hc
    simp only [List.cons.sizeOf_spec] at hlt
    simp only [method.sizeOf_spec, callValue.sizeOf_spec]
    omega
  | methodAt o k args =>
    simp only [methodAt.sizeOf_spec]
    rcases List.mem_cons.1 h with rfl | hc
    · omega
    · have hlt := List.sizeOf_lt_of_mem hc
      simp only [List.cons.sizeOf_spec] at hlt
      omega
  | _ =>
    simp only [children, List.mem_cons, List.not_mem_nil, or_false] at h
    rcases h with rfl | rfl | rfl <;> simp <;> omega

/-- What holds of a tree whenever it holds of the trees below its root holds of all trees. -/
theorem children_induction {P : Node → Prop} (step : ∀ n, (∀ c ∈ n.children, P c) → P n)
    (n : Node) : P n :=
  step n fun c _hc => children_induction step c
termination_by n
decreasing_by exact sizeOf_lt_of_mem_children _hc

end SigilExpr.Node
