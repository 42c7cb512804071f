import SigilExpr.Proofs.Syntax.Spans

/-!
# Spans nest

The span of a node is a stretch of the source with something in it, and the spans of its children
stand one after the other within it. So the nodes of an expression begin in the order of reading: a
node comes before the nodes below it, and it begins where the first of them does or before.
-/

set_option autoImplicit false

namespace SigilExpr

open Text

/-- The tokens of a part of a row cover a stretch of the text with something in it. -/
theorem Token.Row.exists_stretch {source : List Char} {before ts after : List Token}
    (h : Row 0 source [] (before ++ ts ++ after)) (hne : ts ≠ []) :
    ∃ mid, mid ≠ [] ∧ Stretch source (cover ts) mid := by
  obtain ⟨xs, mid, zs, rfl, hmid, -, hcover⟩ := h.exists_cover hne
  rw [Nat.zero_add] at hcover
  exact ⟨mid, hmid, xs, zs, rfl, hcover⟩

namespace SourceExpr

/-- The spans of the children stand one after the other within that of the node. -/
structure Nests (e : SourceExpr) : Prop where
  nonempty : e.span.start < e.span.stop
  within : ∀ c : SourceExpr, c ∈ e.children →
    e.span.start ≤ c.span.start ∧ c.span.stop ≤ e.span.stop
  pairwise : e.children.Pairwise fun c d : SourceExpr => c.span.stop ≤ d.span.start

section

variable {limit : Nat} {source : List Char} {e : SourceExpr}

theorem exists_stretch_of_ofText (h : ofText limit source = .ok e) :
    ∀ n : SourceExpr, n ∈ e.nodes → ∃ mid, mid ≠ [] ∧ Stretch source n.span mid := by
  obtain ⟨ts, hrow, he, hheight⟩ := ofText_eq_ok_iff.1 h
  intro n hn
  obtain ⟨row, ⟨before, after, rfl⟩, hn, -⟩ := he.exists_of_mem_nodes hheight n hn
  rw [hn.span_eq]
  exact hrow.exists_stretch hn.ne_nil

theorem nests_of_ofText (h : ofText limit source = .ok e) :
    ∀ n : SourceExpr, n ∈ e.nodes → n.Nests := by
  intro n hn
  obtain ⟨mid, hmid, hstretch⟩ := exists_stretch_of_ofText h n hn
  obtain ⟨ts, hrow, he, hheight⟩ := ofText_eq_ok_iff.1 h
  obtain ⟨row, hrow', hn, -⟩ := he.exists_of_mem_nodes hheight n hn
  have hordered : Token.Ordered row := hrow.ordered.sublist hrow'.sublist
  have hlaid := hn.laidOut (m := limit) (by simp) (Nat.le_refl _)
  have hwithin := hlaid.within hordered
  rw [← hn.span_eq] at hwithin
  exact ⟨hstretch.start_lt_stop hmid, hwithin, hlaid.pairwise hordered⟩

end

section

variable {e : SourceExpr}

theorem within_of_mem_nodes (h : ∀ n : SourceExpr, n ∈ e.nodes → n.Nests) :
    ∀ n : SourceExpr, n ∈ e.nodes → e.span.start ≤ n.span.start ∧ n.span.stop ≤ e.span.stop := by
  suffices hnodes : ∀ n ∈ e.nodes, (∀ m : SourceExpr, m ∈ n.nodes → m.Nests) ∧
      e.span.start ≤ (span n).start ∧ (span n).stop ≤ e.span.stop from fun n hn => (hnodes n hn).2
  apply Expr.forall_mem_nodes
  · rintro n ⟨hn, hstart, hstop⟩ c hc
    obtain ⟨hstart', hstop'⟩ := (hn n n.self_mem_nodes).within c hc
    exact ⟨fun m hm => hn m (Expr.nodes_subset_of_mem_children hc hm),
      Nat.le_trans hstart hstart', Nat.le_trans hstop' hstop⟩
  · exact ⟨h, Nat.le_refl _, Nat.le_refl _⟩

/-- The nodes begin in the order of reading. By induction on the children: the nodes of one child
end before those of the next begin. -/
theorem nodes_pairwise_start (h : ∀ n : SourceExpr, n ∈ e.nodes → n.Nests) :
    e.nodes.Pairwise fun n m : SourceExpr => n.span.start ≤ m.span.start := by
  induction e using Expr.children_induction with
  | step e ih =>
    have hchild : ∀ c : SourceExpr, c ∈ e.children → ∀ n : SourceExpr, n ∈ c.nodes → n.Nests :=
      fun c hc n hn => h n (Expr.nodes_subset_of_mem_children hc hn)
    have hwithin := within_of_mem_nodes h
    rw [Expr.nodes_eq_cons] at hwithin ⊢
    rw [List.pairwise_cons, List.pairwise_flatMap]
    refine ⟨fun n hn => (hwithin n (List.mem_cons_of_mem _ hn)).1,
      fun c hc => ih c hc (hchild c hc), ?_⟩
    refine (h e e.self_mem_nodes).pairwise.imp_of_mem ?_
    intro c d hc hd hcd n hn m hm
    have hstop := (within_of_mem_nodes (hchild c hc) n hn).2
    have hstart := (within_of_mem_nodes (hchild d hd) m hm).1
    have hlt := (hchild c hc n hn).nonempty
    omega

end

end SourceExpr

end SigilExpr
