import SigilExpr.Expr.Restriction
import SigilExpr.Proofs.Reference.HelperNames

/-!
# The words of an expression

A word of a source is a name or an operator before an operand of the expression that it spells,
unless it follows a dot, where it is the name of a property and means nothing by itself. The two
words that stand between operands are left out here: they may also be names.

The forms that the language does not have leave no trace in an expression, since no row with one of
their lexemes derives.
-/

set_option autoImplicit false

namespace SigilExpr

namespace Expr

variable {Note Other : Type}

/-- The lexeme by which the root of an expression is a name or an operator before an operand. -/
def word? : Expr Note → Option Lexeme
  | .ident _ name => some (.ident name)
  | .unary _ op _ => some op.lexeme
  | _ => none

theorem word?_map (f : Note → Other) (e : Expr Note) : (e.map f).word? = e.word? := by
  cases e <;> rfl

end Expr

namespace Grammar

/-- The lexeme stands in the row at a place that does not follow a dot. -/
def StandsFree (w : Lexeme) (ls : List Lexeme) : Prop :=
  ∃ before after, ls = before ++ w :: after ∧ before.getLast? ≠ some .dot

section

variable {w l k : Lexeme} {ls ms : List Lexeme}

theorem not_standsFree_nil : ¬ StandsFree w [] := by
  rintro ⟨before, after, h, -⟩
  cases before <;> cases h

theorem standsFree_append_cons (hl : l ≠ .dot) (hw : w ≠ l) :
    StandsFree w (ls ++ l :: ms) ↔ StandsFree w ls ∨ StandsFree w ms := by
  constructor
  · rintro ⟨before, after, h, hfree⟩
    rcases List.append_eq_append_iff.1 h with ⟨as, rfl, has⟩ | ⟨as, rfl, has⟩
    · cases as with
      | nil => exact absurd (List.cons.inj has).1.symm hw
      | cons a as =>
        obtain ⟨rfl, rfl⟩ := List.cons.inj has
        refine .inr ⟨as, after, rfl, ?_⟩
        intro hdot
        rw [List.getLast?_append, List.getLast?_cons, hdot] at hfree
        exact hfree rfl
    · cases as with
      | nil => exact absurd (List.cons.inj has).1 hw
      | cons a as =>
        obtain ⟨rfl, rfl⟩ := List.cons.inj has
        exact .inl ⟨before, as, rfl, hfree⟩
  · rintro (⟨before, after, rfl, hfree⟩ | ⟨before, after, rfl, hfree⟩)
    · exact ⟨before, after ++ l :: ms, by simp, hfree⟩
    · refine ⟨ls ++ l :: before, after, by simp, ?_⟩
      rw [List.getLast?_append, List.getLast?_cons]
      cases hb : before.getLast? with
      | none => simpa using hl
      | some a => simpa [hb] using hfree

theorem standsFree_cons_self : StandsFree w (w :: ms) := ⟨[], ms, rfl, by simp⟩

theorem standsFree_cons (hl : l ≠ .dot) :
    StandsFree w (l :: ms) ↔ w = l ∨ StandsFree w ms := by
  by_cases hw : w = l
  · subst hw
    exact iff_of_true standsFree_cons_self (.inl rfl)
  · rw [← List.nil_append (l :: ms), standsFree_append_cons hl hw]
    simp [hw, not_standsFree_nil]

theorem standsFree_concat (hl : l ≠ .dot) (hw : w ≠ l) :
    StandsFree w (ls ++ [l]) ↔ StandsFree w ls := by
  rw [standsFree_append_cons hl hw]
  simp [not_standsFree_nil]

/-- The name of a property does not stand free. -/
theorem standsFree_property (hw : w ≠ .dot) :
    StandsFree w (ls ++ [.dot, k]) ↔ StandsFree w ls := by
  constructor
  · rintro ⟨before, after, h, hfree⟩
    rcases List.append_eq_append_iff.1 h with ⟨as, rfl, has⟩ | ⟨as, rfl, has⟩
    · rcases as with _ | ⟨a, _ | ⟨b, as⟩⟩
      · exact absurd (List.cons.inj has).1.symm hw
      · obtain ⟨rfl, -⟩ := List.cons.inj has
        simp at hfree
      · simp at has
    · cases as with
      | nil => exact absurd (List.cons.inj has).1 hw
      | cons a as =>
        obtain ⟨rfl, rfl⟩ := List.cons.inj has
        exact ⟨before, as, rfl, hfree⟩
  · rintro ⟨before, after, rfl, hfree⟩
    exact ⟨before, after ++ [.dot, k], by simp, hfree⟩

end

section

variable {Note : Type} {note : Note} {l r : Expr Note} {op : Connective} {name : String}

@[simp] theorem word?_join : (join note op l r).word? = none := by
  cases op <;> rfl

@[simp] theorem children_join : (join note op l r).children = [l, r] := by
  cases op <;> rfl

theorem Leaf.ne_dot {k : Lexeme} {e : Expr Note} (h : Leaf note k e) : k ≠ .dot := by
  cases h <;> simp

theorem Leaf.children_eq {k : Lexeme} {e : Expr Note} (h : Leaf note k e) : e.children = [] := by
  cases h <;> rfl

theorem Leaf.word?_eq_some_iff {k : Lexeme} {e : Expr Note} (h : Leaf note k e) :
    e.word? = some (.ident name) ↔ .ident name = k := by
  cases h <;> simp [Expr.word?, eq_comm]

end

mutual

/-- The names that stand free in a row are those of the nodes and of the operators before operands
in its tree. By induction on the derivation: every other lexeme of a rule is no such name. -/
theorem Derives.standsFree_iff {x : Nonterminal} {ls : List Lexeme} {e : Expr Unit} {name : String}
    (hw : (Lexeme.ident name).connective? = none) :
    Derives x ls e →
      (StandsFree (.ident name) ls ↔ ∃ n ∈ e.nodes, n.word? = some (.ident name))
  | .test h | .tighter _ h | .operand h | .plain h | .head h => h.standsFree_iff hw
  | .choice ht ha hb => by
    rw [Expr.exists_mem_nodes_iff, standsFree_append_cons (by simp) (by simp),
      standsFree_append_cons (by simp) (by simp), ht.standsFree_iff hw, ha.standsFree_iff hw,
      hb.standsFree_iff hw]
    simp [Expr.word?, Expr.children]
  | .connect op _ hl hr => by
    rw [Expr.exists_mem_nodes_iff, standsFree_append_cons (op.lexeme_ne rfl) (op.lexeme_ne hw).symm,
      hl.standsFree_iff hw, hr.standsFree_iff hw]
    simp
  | .unary op h => by
    rw [Expr.exists_mem_nodes_iff, standsFree_cons (op.lexeme_ne rfl), h.standsFree_iff hw]
    simp [Expr.word?, Expr.children, eq_comm]
  | .member h _ => by
    rw [Expr.exists_mem_nodes_iff, standsFree_property (by simp), h.standsFree_iff hw]
    simp [Expr.word?, Expr.children]
  | .index h hk => by
    rw [Expr.exists_mem_nodes_iff, standsFree_append_cons (by simp) (by simp),
      standsFree_concat (by simp) (by simp), h.standsFree_iff hw, hk.standsFree_iff hw]
    simp [Expr.word?, Expr.children]
  | .call h hes => by
    rw [Expr.exists_mem_nodes_iff, standsFree_append_cons (by simp) (by simp),
      standsFree_concat (by simp) (by simp), h.standsFree_iff hw, hes.standsFree_iff hw]
    simp [Expr.word?, Expr.children]
  | .leaf h => by
    rw [Expr.exists_mem_nodes_iff, standsFree_cons h.ne_dot, h.word?_eq_some_iff, h.children_eq]
    simp [not_standsFree_nil]
  | .group h => by
    rw [standsFree_cons (by simp), standsFree_concat (by simp) (by simp), h.standsFree_iff hw]
    simp
  | .array hes => by
    rw [Expr.exists_mem_nodes_iff, standsFree_cons (by simp), standsFree_concat (by simp) (by simp),
      hes.standsFree_iff hw]
    simp [Expr.word?, Expr.children]

theorem DerivesItems.standsFree_iff {ls : List Lexeme} {es : List (Expr Unit)} {name : String}
    (hw : (Lexeme.ident name).connective? = none) :
    DerivesItems ls es →
      (StandsFree (.ident name) ls ↔ ∃ e ∈ es, ∃ n ∈ e.nodes, n.word? = some (.ident name))
  | .nil => by simp [not_standsFree_nil]
  | .last h => by
    rw [h.standsFree_iff hw]
    simp
  | .more h hes => by
    rw [standsFree_append_cons (by simp) (by simp), h.standsFree_iff hw, hes.standsFree_iff hw]
    simp

end

/-- The lexemes of forms that the language does not have. -/
inductive Foreign : Lexeme → Prop where
  | lbrace : Foreign .lbrace
  | rbrace : Foreign .rbrace
  | ellipsis : Foreign .ellipsis
  | assign (operator : String) : Foreign (.assign operator)
  | arrow : Foreign .arrow
  | plusPlus : Foreign .plusPlus
  | minusMinus : Foreign .minusMinus
  | semicolon : Foreign .semicolon

theorem Terminal.not_foreign {l : Lexeme} (h : Terminal l) : ¬ Foreign l := by
  intro hf
  cases h with
  | unary op => cases op <;> cases hf
  | connective op => rcases op with op | op <;> cases op <;> cases hf
  | property h => cases h <;> cases hf
  | leaf h => cases h <;> cases hf
  | symbol h => cases hf <;> simp at h

/-- The root of an expression is not a name that is no operand. -/
def Unreserved (e : Expr Unit) : Prop := ∀ name, e = .ident () name → name ∉ reservedWords

theorem Leaf.unreserved {l : Lexeme} {e : Expr Unit} (h : Leaf () l e) : Unreserved e := by
  rintro name rfl
  cases h with
  | ident _ hname => exact hname

theorem unreserved_join (op : Connective) (l r : Expr Unit) : Unreserved (join () op l r) := by
  intro name h
  rcases op with op | op <;> cases h

mutual

theorem Derives.unreserved {x : Nonterminal} {ls : List Lexeme} {e : Expr Unit} :
    Derives x ls e → ∀ n ∈ e.nodes, Unreserved n
  | .test h | .tighter _ h | .operand h | .plain h | .head h | .group h => h.unreserved
  | .choice ht ha hb => by
    rw [Expr.forall_mem_nodes_iff]
    simp only [Expr.children, List.forall_mem_cons]
    exact ⟨fun _ h => (by cases h), ht.unreserved, ha.unreserved, hb.unreserved, by simp⟩
  | .connect op _ hl hr => by
    rw [Expr.forall_mem_nodes_iff, children_join]
    simp only [List.forall_mem_cons]
    exact ⟨unreserved_join op _ _, hl.unreserved, hr.unreserved, by simp⟩
  | .unary op h | .member h _ => by
    rw [Expr.forall_mem_nodes_iff]
    simp only [Expr.children, List.forall_mem_singleton]
    exact ⟨fun _ h => (by cases h), h.unreserved⟩
  | .index h hk => by
    rw [Expr.forall_mem_nodes_iff]
    simp only [Expr.children, List.forall_mem_cons]
    exact ⟨fun _ h => (by cases h), h.unreserved, hk.unreserved, by simp⟩
  | .call h hes => by
    rw [Expr.forall_mem_nodes_iff]
    simp only [Expr.children, List.forall_mem_cons]
    exact ⟨fun _ h => (by cases h), h.unreserved, hes.unreserved⟩
  | .leaf h => by
    rw [Expr.forall_mem_nodes_iff, h.children_eq]
    exact ⟨h.unreserved, by simp⟩
  | .array hes => by
    rw [Expr.forall_mem_nodes_iff]
    exact ⟨fun _ h => (by cases h), hes.unreserved⟩

theorem DerivesItems.unreserved {ls : List Lexeme} {es : List (Expr Unit)} :
    DerivesItems ls es → ∀ e ∈ es, ∀ n ∈ e.nodes, Unreserved n
  | .nil => by simp
  | .last h => List.forall_mem_singleton.2 h.unreserved
  | .more h hes => List.forall_mem_cons.2 ⟨h.unreserved, hes.unreserved⟩

end

theorem Derives.new_not_standsFree {x : Nonterminal} {ls : List Lexeme} {e : Expr Unit}
    (h : Derives x ls e) : ¬ StandsFree (.ident "new") ls := by
  rw [h.standsFree_iff rfl]
  rintro ⟨n, hn, hword⟩
  cases n with
  | ident note name =>
    obtain rfl := Lexeme.ident.inj (Option.some.inj hword)
    exact h.unreserved _ hn _ rfl (by decide)
  | unary note op e => exact op.lexeme_ne rfl (Option.some.inj hword)
  | _ => cases hword

end Grammar

end SigilExpr
