import SigilExpr.Proofs.Syntax.Grouping
import SigilExpr.Proofs.Syntax.Spans

/-!
# Where the nodes of an expression stand

Every node of an expression takes the row of tokens from one end of it to the other, and the rule of
groups adds the parentheses to the row of the node within. So a node stands where an operand is due,
and what stands directly around it is no pair of parentheses that groups: such a pair would be part
of its row.

A pair of parentheses may still stand around a node: `f(x)` has one around `x`, where an operand has
just ended.
-/

set_option autoImplicit false

namespace SigilExpr

namespace Grammar

/-- A pair of parentheses that groups stands around the place between the two rows. -/
def Enclosed (before after : List Lexeme) : Prop :=
  ∃ ls ms, before = ls ++ [.lparen] ∧ Due.operand.after ls = .operand ∧ after = .rparen :: ms

/-- What stands next to the place between the two rows, before it or behind it, is no parenthesis
that could group around it. -/
def Exposed (before after : List Lexeme) : Prop :=
  (∃ l ms, after = l :: ms ∧ l ≠ .rparen) ∨
    ∃ ls l, before = ls ++ [l] ∧ ¬ (l = .lparen ∧ Due.operand.after ls = .operand)

theorem Exposed.not_enclosed {before after : List Lexeme} (h : Exposed before after) :
    ¬ Enclosed before after := by
  rintro ⟨ls, ms, rfl, hdue, rfl⟩
  rcases h with ⟨l, ms', heq, hl⟩ | ⟨ls', l, heq, hl⟩
  · exact hl (List.cons.inj heq).1.symm
  · obtain ⟨rfl, hlast⟩ := List.append_inj' heq rfl
    exact hl ⟨(List.singleton_inj.1 hlast).symm, hdue⟩

/-- A place stays exposed in a longer row if an operand is due where the row begins. -/
theorem Exposed.extend {before after ls ms : List Lexeme} (h : Exposed before after)
    (hls : Due.operand.after ls = .operand) : Exposed (ls ++ before) (after ++ ms) := by
  rcases h with ⟨l, tail, rfl, hl⟩ | ⟨init, l, rfl, hl⟩
  · exact .inl ⟨l, tail ++ ms, rfl, hl⟩
  · refine .inr ⟨ls ++ init, l, (List.append_assoc _ _ _).symm, ?_⟩
    rwa [Due.after_append, hls]

end Grammar

namespace Parser

open Grammar

/-- The expression is that of a part of the row, at an exposed place where an operand is due. -/
def Placed (m : Nat) (ts : List Token) (e : SourceExpr) : Prop :=
  ∃ before row after, ts = before ++ (row ++ after) ∧ Phrase m .expression row e ∧
    Due.operand.after (before.map Token.lexeme) = .operand ∧
    Exposed (before.map Token.lexeme) (after.map Token.lexeme)

namespace Placed

variable {m : Nat} {ts row : List Token} {t : Token} {e : SourceExpr}

theorem extend (us vs : List Token) (hus : Due.operand.after (us.map Token.lexeme) = .operand)
    (h : Placed m ts e) : Placed m (us ++ (ts ++ vs)) e := by
  obtain ⟨before, row, after, rfl, he, hdue, hexposed⟩ := h
  refine ⟨us ++ before, row, after ++ vs, by simp, he, ?_, ?_⟩
  · rw [List.map_append, Due.after_append, hus, hdue]
  · rw [List.map_append, List.map_append]
    exact hexposed.extend hus

/-- A part of the row with no closing parenthesis behind it. -/
theorem open_right (before after : List Token) (he : Phrase m .expression row e)
    (hdue : Due.operand.after (before.map Token.lexeme) = .operand) (ht : t.lexeme ≠ .rparen) :
    Placed m (before ++ (row ++ t :: after)) e :=
  ⟨before, row, t :: after, rfl, he, hdue, .inl ⟨t.lexeme, after.map Token.lexeme, rfl, ht⟩⟩

/-- A part of the row with no parenthesis before it. -/
theorem open_left (before after : List Token) (he : Phrase m .expression row e)
    (hdue : Due.operand.after ((before ++ [t]).map Token.lexeme) = .operand)
    (ht : ¬ (t.lexeme = .lparen ∧ Due.operand.after (before.map Token.lexeme) = .operand)) :
    Placed m (before ++ t :: (row ++ after)) e :=
  ⟨before ++ [t], row, after, by simp, he, hdue,
    .inr ⟨before.map Token.lexeme, t.lexeme, by simp, ht⟩⟩

end Placed

/-- The expression is one of those between commas in the row. -/
def Listed (m : Nat) (ts : List Token) (e : SourceExpr) : Prop :=
  ∃ before row after, ts = before ++ (row ++ after) ∧ Phrase m .expression row e ∧
    Due.operand.after (before.map Token.lexeme) = .operand ∧
    (before = [] ∨ ∃ us q, before = us ++ [q] ∧ q.lexeme = .comma) ∧
    (after = [] ∨ ∃ q us, after = q :: us ∧ q.lexeme = .comma)

/-- What is listed between two brackets is exposed, if not by a comma then by one of these. -/
theorem Listed.placed {m : Nat} {us : List Token} {o c : Token} {e : SourceExpr}
    (h : Listed m us e) (ts : List Token)
    (ho : Due.operand.after ((ts ++ [o]).map Token.lexeme) = .operand)
    (hoc : c.lexeme ≠ .rparen ∨
      ¬ (o.lexeme = .lparen ∧ Due.operand.after (ts.map Token.lexeme) = .operand)) :
    Placed m (ts ++ o :: (us ++ [c])) e := by
  obtain ⟨before, row, after, rfl, he, hdue, hbefore, hafter⟩ := h
  have hdue' : Due.operand.after ((ts ++ [o] ++ before).map Token.lexeme) = .operand := by
    rw [List.map_append, Due.after_append, ho, hdue]
  rcases hafter with rfl | ⟨q, vs, rfl, hq⟩
  · by_cases hc : c.lexeme = .rparen
    · rcases hbefore with rfl | ⟨vs, q, rfl, hq⟩
      · simpa using Placed.open_left ts [c] he ho (hoc.resolve_left (absurd hc))
      · have hplaced : Placed m (ts ++ [o] ++ vs ++ q :: (row ++ [c])) e :=
          .open_left _ _ he (by simpa using hdue') (by simp [hq])
        simpa using hplaced
    · simpa using Placed.open_right (ts ++ [o] ++ before) [] he hdue' hc
  · simpa using Placed.open_right (t := q) (ts ++ [o] ++ before) (vs ++ [c]) he hdue' (by simp [hq])

mutual

/-- The children of a phrase are placed in its row. By recursion on the phrase, a group having the
children of the expression in it. -/
theorem Phrase.placed {n m : Nat} {x : Nonterminal} {ts : List Token} {e : SourceExpr} :
    Phrase n x ts e → x ≠ .level 0 → n + 1 ≤ m + ownNesting x → ∀ c ∈ e.children, Placed m ts c
  | .test h, _, hn => h.placed (by simp) (Nat.le_of_succ_le_succ hn)
  | @Phrase.choice _ ts us vs _ _ _ q c hq hc ht ha hb, _, hn => by
    have hinner := Nat.le_of_succ_le hn
    have hdue : Due.operand.after ((ts ++ [q]).map Token.lexeme) = .operand := by
      simp [ht.derives.due_eq, hq]
    refine List.forall_mem_cons.2 ⟨?_, List.forall_mem_cons.2 ⟨?_, List.forall_mem_singleton.2 ?_⟩⟩
    · exact .open_right [] _ (ht.alone (by simp) (Nat.le_of_succ_le_succ hn)) rfl (by simp [hq])
    · simpa using Placed.open_right (ts ++ [q]) vs (ha.alone (by simp) hinner) hdue (by simp [hc])
    · have hdue' : Due.operand.after ((ts ++ [q] ++ us ++ [c]).map Token.lexeme) = .operand := by
        rw [List.map_append, List.map_append, Due.after_append, Due.after_append, hdue,
          ha.derives.due_eq]
        simp [hc, Due.next]
      simpa using Placed.open_left (ts ++ [q] ++ us) [] (hb.alone (by simp) hinner) hdue'
        (by simp [hc])
  | .tighter _ h, _, hn => h.placed (by simp) hn
  | @Phrase.connect _ _ ts _ _ _ o op ho hlevel hl hr, hx, hn => by
    rw [children_join]
    have hdue : Due.operand.after ((ts ++ [o]).map Token.lexeme) = .operand := by
      simp [hl.derives.due_eq, ho]
    refine List.forall_mem_cons.2 ⟨?_, List.forall_mem_singleton.2 ?_⟩
    · exact .open_right [] _ (hl.alone hx hn) rfl (by rw [ho]; exact op.lexeme_ne rfl)
    · simpa using Placed.open_left ts [] (hr.alone (by simp) hn) hdue
        (by rw [ho]; exact fun h => op.lexeme_ne rfl h.1)
  | .operand h, _, hn => h.placed (by simp) hn
  | .unary (o := o) op ho h, _, hn => by
    refine List.forall_mem_singleton.2 ?_
    simpa using Placed.open_left (t := o) [] [] (h.alone (by simp) (Nat.le_of_succ_le hn))
      (by simp [ho]) (by rw [ho]; exact fun h => op.lexeme_ne rfl h.1)
  | .plain h, _, hn => h.placed (by simp) hn
  | .head h, _, hn => h.placed (by simp) hn
  | .member hd _ h, _, hn => by
    refine List.forall_mem_singleton.2 ?_
    exact .open_right [] _ (h.alone (by simp) hn) rfl (by simp [hd])
  | @Phrase.index _ ts _ _ _ o _ ho hq h hk, _, hn => by
    have hdue : Due.operand.after ((ts ++ [o]).map Token.lexeme) = .operand := by
      simp [h.derives.due_eq, ho, Due.next]
    refine List.forall_mem_cons.2 ⟨?_, List.forall_mem_singleton.2 ?_⟩
    · exact .open_right [] _ (h.alone (by simp) hn) rfl (by simp [ho])
    · have hkey : Phrase m .expression _ _ := hk.alone (by simp) (Nat.le_succ_of_le hn)
      simpa using Placed.open_right (ts ++ [o]) [] hkey hdue (by simp [hq])
  | @Phrase.call _ ts _ _ _ o _ ho hq h hes, _, hn => by
    have hdue : Due.operand.after ((ts ++ [o]).map Token.lexeme) = .operand := by
      simp [h.derives.due_eq, ho, Due.next]
    refine List.forall_mem_cons.2 ⟨?_, ?_⟩
    · exact .open_right [] _ (h.alone (by simp) hn) rfl (by simp [ho])
    · intro e he
      refine (hes.listed (Nat.le_of_succ_le hn) e he).placed ts hdue (.inr ?_)
      simp [h.derives.due_eq]
  | .leaf h, _, _ => by
    rw [h.children_eq]
    simp
  | .group (o := o) (c := c) ho _ h, _, hn => by
    rw [Expr.children_withNote]
    intro e he
    exact (h.placed (by simp) (Nat.le_succ_of_le hn) e he).extend [o] [c] (by simp [ho, Due.next])
  | .array ho hq hes, _, hn => by
    intro e he
    exact (hes.listed (Nat.le_of_succ_le hn) e he).placed [] (by simp [ho, Due.next])
      (.inl (by simp [hq]))

theorem PhraseItems.listed {n m : Nat} {ts : List Token} {es : List SourceExpr} :
    PhraseItems n ts es → n ≤ m → ∀ e ∈ es, Listed m ts e
  | .nil, _ => by simp
  | .last h, hn => by
    refine List.forall_mem_singleton.2 ?_
    exact ⟨[], _, [], by simp, h.mono hn, rfl, .inl rfl, .inl rfl⟩
  | @PhraseItems.more _ ts us _ _ c hq h hes, hn => by
    refine List.forall_mem_cons.2 ⟨?_, ?_⟩
    · exact ⟨[], ts, c :: us, rfl, h.mono hn, rfl, .inl rfl, .inr ⟨c, us, rfl, hq⟩⟩
    · intro e he
      obtain ⟨before, row, after, rfl, he, hdue, hbefore, hafter⟩ := hes.listed hn e he
      refine ⟨ts ++ c :: before, row, after, by simp, he, ?_, .inr ?_, hafter⟩
      · simp [h.derives.due_eq, hq, Due.next, hdue]
      · rcases hbefore with rfl | ⟨vs, q, rfl, hcomma⟩
        · exact ⟨ts, c, rfl, hq⟩
        · exact ⟨ts ++ c :: vs, q, by simp, hcomma⟩

end

/-- Every node of a phrase is a phrase of a part of its row, with no group directly around it. -/
theorem Phrase.exists_place {limit : Nat} {ts : List Token} {e : SourceExpr}
    (h : Phrase limit .expression ts e) : ∀ n : SourceExpr, n ∈ e.nodes →
      ∃ before row after, ts = before ++ (row ++ after) ∧ Phrase limit .expression row n ∧
        ¬ Enclosed (before.map Token.lexeme) (after.map Token.lexeme) := by
  suffices hplaces : ∀ n ∈ e.nodes, ∃ before row after, ts = before ++ (row ++ after) ∧
      Phrase limit .expression row n ∧ Due.operand.after (before.map Token.lexeme) = .operand ∧
      ¬ Enclosed (before.map Token.lexeme) (after.map Token.lexeme) by
    intro n hn
    obtain ⟨before, row, after, heq, hphrase, -, hplace⟩ := hplaces n hn
    exact ⟨before, row, after, heq, hphrase, hplace⟩
  apply Expr.forall_mem_nodes
  · rintro n ⟨before, row, after, rfl, hn, hdue, -⟩ c hc
    obtain ⟨before', row', after', heq, hc, hdue', hexposed⟩ :=
      (hn.placed (by simp) (Nat.le_refl _) c hc).extend before after hdue
    exact ⟨before', row', after', heq, hc, hdue', hexposed.not_enclosed⟩
  · exact ⟨[], ts, [], by simp, h, rfl, by rintro ⟨ls, ms, -, -, hnil⟩; cases hnil⟩

end Parser

end SigilExpr
