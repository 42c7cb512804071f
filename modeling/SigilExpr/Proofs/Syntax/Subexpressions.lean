import SigilExpr.Expr.Basic

/-!
# The nodes of an expression

The nodes of an expression stand in the order of reading: a node before the nodes below it, and these
from the left. Changing the notes changes no node otherwise.
-/

set_option autoImplicit false

namespace SigilExpr.Expr

variable {Note Other : Type}

theorem mapAll_eq_map (f : Note → Other) (es : List (Expr Note)) :
    mapAll f es = es.map (map f) := by
  induction es with
  | nil => rfl
  | cons e es ih => rw [mapAll, ih, List.map_cons]

theorem nodesAll_eq_flatMap (es : List (Expr Note)) : nodesAll es = es.flatMap nodes := by
  induction es with
  | nil => rfl
  | cons e es ih => rw [nodesAll, ih, List.flatMap_cons]

theorem nodes_eq_cons (e : Expr Note) : e.nodes = e :: e.children.flatMap nodes := by
  cases e <;> simp [nodes, children, nodesAll_eq_flatMap]

theorem self_mem_nodes (e : Expr Note) : e ∈ e.nodes := by
  rw [nodes_eq_cons]
  exact List.mem_cons_self

theorem nodes_subset_of_mem_children {e c : Expr Note} (h : c ∈ e.children) :
    c.nodes ⊆ e.nodes := by
  intro n hn
  rw [nodes_eq_cons e]
  exact List.mem_cons_of_mem e (List.mem_flatMap.2 ⟨c, h, hn⟩)

/-- The nodes other than the root. -/
def descendants (e : Expr Note) : List (Expr Note) := e.children.flatMap nodes

theorem mem_descendants_iff {e d : Expr Note} :
    d ∈ e.descendants ↔ ∃ c ∈ e.children, d ∈ c.nodes :=
  List.mem_flatMap

theorem mem_descendants_of_mem_children {e c : Expr Note} (h : c ∈ e.children) :
    c ∈ e.descendants :=
  mem_descendants_iff.2 ⟨c, h, c.self_mem_nodes⟩

theorem forall_mem_nodes_iff {e : Expr Note} {P : Expr Note → Prop} :
    (∀ n ∈ e.nodes, P n) ↔ P e ∧ ∀ c ∈ e.children, ∀ n ∈ c.nodes, P n := by
  rw [nodes_eq_cons, List.forall_mem_cons]
  simp only [List.mem_flatMap, forall_exists_index, and_imp]
  exact and_congr_right fun _ => ⟨fun h c hc n hn => h n c hc hn, fun h n c hc hn => h c hc n hn⟩

theorem exists_mem_nodes_iff {e : Expr Note} {P : Expr Note → Prop} :
    (∃ n ∈ e.nodes, P n) ↔ P e ∨ ∃ c ∈ e.children, ∃ n ∈ c.nodes, P n := by
  rw [nodes_eq_cons]
  simp only [List.mem_cons, List.mem_flatMap, exists_eq_or_imp, ← exists_and_right]
  constructor
  · rintro (h | ⟨n, c, ⟨hc, hn⟩, h⟩)
    · exact .inl h
    · exact .inr ⟨c, hc, n, hn, h⟩
  · rintro (h | ⟨c, hc, n, hn, h⟩)
    · exact .inl h
    · exact .inr ⟨n, c, ⟨hc, hn⟩, h⟩

theorem length_nodes_lt {e c : Expr Note} (h : c ∈ e.children) :
    c.nodes.length < e.nodes.length := by
  obtain ⟨before, after, heq⟩ := List.append_of_mem h
  rw [nodes_eq_cons e, heq]
  simp only [List.flatMap_append, List.flatMap_cons, List.length_cons, List.length_append]
  omega

/-- What holds of an expression whenever it holds of those below its root holds of all of them. -/
theorem children_induction {P : Expr Note → Prop} (step : ∀ e, (∀ c ∈ e.children, P c) → P e)
    (e : Expr Note) : P e :=
  step e fun c _hc => children_induction step c
termination_by e.nodes.length
decreasing_by exact length_nodes_lt _hc

/-- What a node passes on to its children holds of all nodes below it. -/
theorem forall_mem_nodes {P : Expr Note → Prop} (h : ∀ e, P e → ∀ c ∈ e.children, P c)
    {e : Expr Note} (he : P e) : ∀ n ∈ e.nodes, P n := by
  induction e using children_induction with
  | step e ih => exact forall_mem_nodes_iff.2 ⟨he, fun c hc => ih c hc (h e he c hc)⟩

theorem nodes_subset_of_mem_nodes {e d : Expr Note} (h : d ∈ e.nodes) : d.nodes ⊆ e.nodes := by
  refine forall_mem_nodes (P := fun n => n.nodes ⊆ e.nodes) ?_ (List.Subset.refl _) d h
  intro n hn c hc
  exact List.Subset.trans (nodes_subset_of_mem_children hc) hn

theorem descendants_subset_nodes (e : Expr Note) : e.descendants ⊆ e.nodes := by
  rw [nodes_eq_cons]
  exact List.subset_cons_self e _

mutual

theorem nodes_map (f : Note → Other) : (e : Expr Note) → (e.map f).nodes = e.nodes.map (map f)
  | .number _ _ | .string _ _ | .bool _ _ | .null _ | .ident _ _ => rfl
  | .unary _ _ e | .member _ e _ => by simp [nodes, map, nodes_map f e]
  | .binary _ _ l r | .logical _ _ l r | .index _ l r => by
    simp [nodes, map, nodes_map f l, nodes_map f r]
  | .conditional _ t a b => by simp [nodes, map, nodes_map f t, nodes_map f a, nodes_map f b]
  | .call _ g args => by simp [nodes, map, nodes_map f g, nodesAll_mapAll f args]
  | .array _ items => by simp [nodes, map, nodesAll_mapAll f items]

theorem nodesAll_mapAll (f : Note → Other) :
    (es : List (Expr Note)) → nodesAll (mapAll f es) = (nodesAll es).map (map f)
  | [] => rfl
  | e :: es => by simp [nodesAll, mapAll, nodes_map f e, nodesAll_mapAll f es]

end

end SigilExpr.Expr
