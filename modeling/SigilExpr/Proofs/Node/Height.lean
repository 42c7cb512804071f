import SigilExpr.Proofs.Node.Lowering
import SigilExpr.Proofs.Syntax.Spans

/-!
# Heights

The height of a tree is the number of nodes on the longest way down. An expression that has been
read has its height noted at each of its nodes, also where parentheses have changed the note. Its
compiled tree is no higher: lowering takes levels out of an expression and adds none.
-/

set_option autoImplicit false

namespace SigilExpr

open SigilExpr.Parser

namespace Node

mutual

/-- How many nodes the longest way down has. -/
def height : Node → Nat
  | .const _ | .contextRoot | .contextRead _ => 1
  | .helper _ args | .array args => 1 + maxHeight args
  | .unary _ e | .member e _ => 1 + height e
  | .binary _ l r | .logical _ l r | .index l r => 1 + max (height l) (height r)
  | .conditional t a b => 1 + max (height t) (max (height a) (height b))
  | .method o _ args | .callValue o args => 1 + max (height o) (maxHeight args)
  | .methodAt o k args => 1 + max (height o) (max (height k) (maxHeight args))

def maxHeight : List Node → Nat
  | [] => 0
  | n :: ns => max (height n) (maxHeight ns)

end

theorem height_eq (n : Node) : n.height = 1 + maxHeight n.children := by
  cases n <;> simp [height, children, maxHeight]

theorem height_pos (n : Node) : 0 < n.height := by
  rw [height_eq]
  omega

theorem maxHeight_le_iff {ns : List Node} {h : Nat} :
    maxHeight ns ≤ h ↔ ∀ n ∈ ns, n.height ≤ h := by
  induction ns with
  | nil => simp [maxHeight]
  | cons n ns ih => rw [maxHeight, Nat.max_le, ih, List.forall_mem_cons]

theorem height_le_iff {n : Node} {h : Nat} :
    n.height ≤ h + 1 ↔ ∀ c ∈ n.children, c.height ≤ h := by
  rw [height_eq, Nat.add_comm, Nat.add_le_add_iff_right, maxHeight_le_iff]

theorem height_lt_of_mem_children {n c : Node} (h : c ∈ n.children) : c.height < n.height := by
  obtain ⟨k, hk⟩ := Nat.exists_eq_succ_of_ne_zero n.height_pos.ne'
  have hle := height_le_iff.1 (Nat.le_of_eq hk) c h
  omega

end Node

namespace SourceExpr

/-- The height that is noted at each node is one more than the greatest one noted below it. -/
def Measured (e : SourceExpr) : Prop :=
  ∀ n : SourceExpr, n ∈ e.nodes → n.height = 1 + maxHeight n.children

namespace Measured

variable {e d : SourceExpr}

theorem of_mem_nodes (h : Measured e) (hd : d ∈ e.nodes) : Measured d :=
  fun n hn => h n (Expr.nodes_subset_of_mem_nodes hd hn)

theorem height_pos (h : Measured e) : 0 < e.height := by
  rw [h e e.self_mem_nodes]
  omega

theorem height_lt_of_mem_children (h : Measured e) (hd : d ∈ e.children) : d.height < e.height := by
  have hle : d.height ≤ maxHeight e.children := maxHeight_le_iff.1 (Nat.le_refl _) d hd
  rw [h e e.self_mem_nodes]
  omega

theorem height_le_of_mem_nodes (h : Measured e) (hd : d ∈ e.nodes) : d.height ≤ e.height := by
  suffices hnodes : ∀ n : SourceExpr, n ∈ e.nodes → Measured n ∧ n.height ≤ e.height from
    (hnodes d hd).2
  apply Expr.forall_mem_nodes
  · rintro n ⟨hn, hle⟩ c hc
    have hlt := hn.height_lt_of_mem_children hc
    have hmem : c ∈ n.nodes := Expr.nodes_subset_of_mem_children hc c.self_mem_nodes
    exact ⟨hn.of_mem_nodes hmem, by omega⟩
  · exact ⟨h, Nat.le_refl _⟩

theorem height_lt_of_mem_descendants (h : Measured e) (hd : d ∈ e.descendants) :
    d.height < e.height := by
  obtain ⟨c, hc, hd⟩ := Expr.mem_descendants_iff.1 hd
  have hmem : c ∈ e.nodes := Expr.nodes_subset_of_mem_children hc c.self_mem_nodes
  have hlt := h.height_lt_of_mem_children hc
  have hle := (h.of_mem_nodes hmem).height_le_of_mem_nodes hd
  omega

end Measured

/-- An expression that has been read is measured, and no node of it is higher than the limit. -/
theorem measured_of_ofText {limit : Nat} {source : List Char} {e : SourceExpr}
    (h : ofText limit source = .ok e) :
    Measured e ∧ ∀ n : SourceExpr, n ∈ e.nodes → n.height ≤ limit := by
  obtain ⟨ts, -, he, hheight⟩ := ofText_eq_ok_iff.1 h
  constructor
  · intro n hn
    obtain ⟨row, -, hrow, -⟩ := he.exists_of_mem_nodes hheight n hn
    exact hrow.height_eq
  · intro n hn
    obtain ⟨row, -, -, hle⟩ := he.exists_of_mem_nodes hheight n hn
    exact hle

/-- A compiled tree is no higher than its expression. By induction on the tree: what stands below a
node comes from an expression that stands below. -/
theorem Lowers.height_le {n : Node} : ∀ {e : SourceExpr}, Lowers e n → Measured e →
    n.height ≤ e.height := by
  induction n using Node.children_induction with
  | step n ih =>
    intro e h he
    obtain ⟨k, hk⟩ := Nat.exists_eq_succ_of_ne_zero he.height_pos.ne'
    rw [hk, Nat.succ_eq_add_one, Node.height_le_iff]
    intro c hc
    obtain ⟨d, hd, hlowers⟩ := h.exists_of_mem_children hc
    have hlt := he.height_lt_of_mem_descendants hd
    have hle := ih c hc hlowers (he.of_mem_nodes (e.descendants_subset_nodes hd))
    omega

end SourceExpr

end SigilExpr
