import SigilExpr.Proofs.Syntax.Acceptance

/-!
# Parentheses that group

An opening parenthesis begins a group where an operand is due, and the arguments of a call where one
has just ended. `Due` reads this off the lexemes from left to right, without a tree; a derivation
uses the rule of groups just where the lexemes open one.

Without groups the height of an expression bounds its nesting: every level of nesting that the
parser counts is then a level of the tree. A group adds nesting and no height.
-/

set_option autoImplicit false

namespace SigilExpr.Grammar

/-- What may stand next in a row: an operand, what follows one, or the name of a property. -/
inductive Due where
  | operand
  | suffix
  | property

namespace Due

/-- What is due after one more lexeme. -/
def next : Due → Lexeme → Due
  | .property, _ => .suffix
  | .operand, l =>
    if l.unary?.isSome ∨ l ∈ [Lexeme.lparen, .lbracket] then .operand else .suffix
  | .suffix, l =>
    if l = .dot then .property
    else if l.connective?.isSome ∨ l ∈ [Lexeme.lparen, .lbracket, .question, .colon, .comma] then
      .operand
    else .suffix

def after (due : Due) (ls : List Lexeme) : Due := ls.foldl next due

variable {due : Due} {ls ms : List Lexeme} {l : Lexeme}

@[simp] theorem after_nil : due.after [] = due := rfl

@[simp] theorem after_cons : due.after (l :: ls) = (due.next l).after ls := rfl

@[simp] theorem after_append : due.after (ls ++ ms) = (due.after ls).after ms :=
  List.foldl_append

@[simp] theorem next_unary (op : UnaryOp) : Due.operand.next op.lexeme = .operand := by
  simp [next, Lexeme.unary?_eq_some_iff.2 rfl]

@[simp] theorem next_connective (op : Connective) : Due.suffix.next op.lexeme = .operand := by
  simp [next, Lexeme.connective?_eq_some_iff.2 rfl, op.lexeme_ne (l := .dot) rfl]

@[simp] theorem next_question : Due.suffix.next .question = .operand := rfl

theorem next_leaf {Note : Type} {note : Note} {e : Expr Note} (h : Leaf note l e) :
    Due.operand.next l = .suffix := by
  have hnone := h.unary?_eq_none
  cases h <;> simp [next, hnone]

end Due

/-- A parenthesis in the row stands where an operand is due; `due` is what is due at its beginning.
-/
def OpensGroup (due : Due) (ls : List Lexeme) : Prop :=
  ∃ before after, ls = before ++ .lparen :: after ∧ due.after before = .operand

section

variable {due : Due} {ls ms : List Lexeme} {l : Lexeme} {x : Nonterminal} {e : Expr Unit}

@[simp] theorem not_opensGroup_nil : ¬ OpensGroup due [] := by
  rintro ⟨before, after, h, -⟩
  cases before <;> cases h

@[simp] theorem opensGroup_cons :
    OpensGroup due (l :: ls) ↔ (l = .lparen ∧ due = .operand) ∨ OpensGroup (due.next l) ls := by
  constructor
  · rintro ⟨before, after, h, hdue⟩
    cases before with
    | nil =>
      obtain ⟨rfl, rfl⟩ := List.cons.inj h
      exact .inl ⟨rfl, hdue⟩
    | cons k before =>
      obtain ⟨rfl, rfl⟩ := List.cons.inj h
      exact .inr ⟨before, after, rfl, hdue⟩
  · rintro (⟨rfl, rfl⟩ | ⟨before, after, rfl, hdue⟩)
    · exact ⟨[], ls, rfl, rfl⟩
    · exact ⟨l :: before, after, rfl, hdue⟩

@[simp] theorem opensGroup_append :
    OpensGroup due (ls ++ ms) ↔ OpensGroup due ls ∨ OpensGroup (due.after ls) ms := by
  induction ls generalizing due with
  | nil => simp
  | cons l ls ih => simp only [List.cons_append, opensGroup_cons, ih, Due.after_cons, or_assoc]

mutual

/-- After an expression an operand has ended. -/
theorem Derives.due_eq {x : Nonterminal} {ls : List Lexeme} {e : Expr Unit} :
    Derives x ls e → Due.operand.after ls = .suffix
  | .test h | .tighter _ h | .operand h | .plain h | .head h => h.due_eq
  | .choice ht ha hb => by
    rw [Due.after_append, ht.due_eq, Due.after_cons, Due.next_question, Due.after_append,
      ha.due_eq]
    exact hb.due_eq
  | .connect op _ hl hr => by
    rw [Due.after_append, hl.due_eq, Due.after_cons, Due.next_connective, hr.due_eq]
  | .unary op h => by rw [Due.after_cons, Due.next_unary, h.due_eq]
  | .member h _ => by rw [Due.after_append, h.due_eq]; rfl
  | .index h hk => by
    rw [Due.after_append, h.due_eq, Due.after_cons, Due.after_append]
    exact congrArg (Due.after · _) hk.due_eq
  | .call h hes => by
    rw [Due.after_append, h.due_eq, Due.after_cons, Due.after_append]
    exact hes.due_eq (.inl rfl)
  | .leaf h => Due.next_leaf h
  | .group h => by
    rw [Due.after_cons, Due.after_append]
    exact congrArg (Due.after · _) h.due_eq
  | .array hes => by
    rw [Due.after_cons, Due.after_append]
    exact hes.due_eq (.inr rfl)

theorem DerivesItems.due_eq {ls : List Lexeme} {es : List (Expr Unit)} {close : Lexeme} :
    DerivesItems ls es → close = .rparen ∨ close = .rbracket →
      (Due.operand.after ls).next close = .suffix
  | .nil, hclose => by rcases hclose with rfl | rfl <;> rfl
  | .last h, hclose => by
    rw [h.due_eq]
    rcases hclose with rfl | rfl <;> rfl
  | .more h hes, hclose => by
    rw [Due.after_append, h.due_eq]
    exact hes.due_eq hclose

end

end

mutual

/-- The derivation uses the rule of groups. -/
def Derivation.HasGroup {x : Nonterminal} : Derivation x → Prop
  | .test d | .tighter _ d | .operand d | .plain d | .head d | .unary _ d | .member d _ _ _ =>
    d.HasGroup
  | .choice t a b => t.HasGroup ∨ a.HasGroup ∨ b.HasGroup
  | .connect _ _ l r => l.HasGroup ∨ r.HasGroup
  | .index d k => d.HasGroup ∨ k.HasGroup
  | .call d args => d.HasGroup ∨ args.HasGroup
  | .leaf _ _ _ => False
  | .group _ => True
  | .array items => items.HasGroup

def DerivationItems.HasGroup : DerivationItems → Prop
  | .nil => False
  | .last d => d.HasGroup
  | .more d items => d.HasGroup ∨ items.HasGroup

end

theorem PropertyName.ne_lparen {l : Lexeme} {name : String} (h : PropertyName l name) :
    l ≠ .lparen := by
  cases h <;> simp

theorem Leaf.ne_lparen {Note : Type} {note : Note} {l : Lexeme} {e : Expr Note}
    (h : Leaf note l e) : l ≠ .lparen := by
  cases h <;> simp

mutual

/-- The parentheses that open a group are those of the rule of groups. -/
theorem Derivation.opensGroup_iff {x : Nonterminal} :
    (d : Derivation x) → (OpensGroup .operand d.lexemes ↔ d.HasGroup)
  | .test d | .tighter _ d | .operand d | .plain d | .head d => d.opensGroup_iff
  | .choice t a b => by
    simp [Derivation.lexemes, Derivation.HasGroup, Due.next, t.derives.due_eq, a.derives.due_eq,
      t.opensGroup_iff, a.opensGroup_iff, b.opensGroup_iff]
  | .connect op _ l r => by
    simp [Derivation.lexemes, Derivation.HasGroup, l.derives.due_eq, l.opensGroup_iff,
      r.opensGroup_iff]
  | .unary op d => by
    simp [Derivation.lexemes, Derivation.HasGroup, d.opensGroup_iff, op.lexeme_ne (l := .lparen) rfl]
  | .member d k _ hk => by
    simp [Derivation.lexemes, Derivation.HasGroup, d.opensGroup_iff, hk.ne_lparen]
  | .index d k => by
    simp [Derivation.lexemes, Derivation.HasGroup, Due.next, d.derives.due_eq, d.opensGroup_iff,
      k.opensGroup_iff]
  | .call d args => by
    simp [Derivation.lexemes, Derivation.HasGroup, Due.next, d.derives.due_eq, d.opensGroup_iff,
      args.opensGroup_iff]
  | .leaf l _ h => by simp [Derivation.lexemes, Derivation.HasGroup, h.ne_lparen]
  | .group d => by simp [Derivation.lexemes, Derivation.HasGroup]
  | .array items => by
    simp [Derivation.lexemes, Derivation.HasGroup, Due.next, items.opensGroup_iff]

theorem DerivationItems.opensGroup_iff :
    (ds : DerivationItems) → (OpensGroup .operand ds.lexemes ↔ ds.HasGroup)
  | .nil => by simp [DerivationItems.lexemes, DerivationItems.HasGroup]
  | .last d => d.opensGroup_iff
  | .more d items => by
    simp [DerivationItems.lexemes, DerivationItems.HasGroup, Due.next, d.derives.due_eq,
      d.opensGroup_iff, items.opensGroup_iff]

end

end SigilExpr.Grammar

namespace SigilExpr.Parser

open Grammar

theorem Phrase.height_pos {n : Nat} {x : Nonterminal} {ts : List Token} {e : SourceExpr} :
    Phrase n x ts e → 0 < e.height
  | .test h | .tighter _ h | .operand h | .plain h | .head h => h.height_pos
  | .choice _ _ _ _ _ | .unary _ _ _ | .member _ _ _ | .index _ _ _ _ | .call _ _ _ _
  | .array _ _ _ => Nat.add_pos_left Nat.one_pos _
  | .connect _ _ _ _ _ => by
    rw [SourceExpr.height, note_join]
    exact Nat.add_pos_left Nat.one_pos _
  | .leaf h => by
    rw [SourceExpr.height, h.note_eq]
    exact Nat.one_pos
  | .group _ _ h => by
    rw [height_withNote]
    exact h.height_pos

/-- The nodes below a node are lower than it is. -/
theorem height_add_le_of_mem {es : List SourceExpr} {m k : Nat}
    (h : 1 + maxHeight es + k ≤ m + 1) {e : SourceExpr} (he : e ∈ es) : e.height + k ≤ m := by
  have hlow : e.height ≤ maxHeight es := maxHeight_le_iff.1 (Nat.le_refl _) e he
  omega

mutual

/-- Without groups a phrase needs no more nesting than its height, and one level less where its
nonterminal takes none by itself. By induction on the phrase, the nodes below it being lower. -/
theorem Phrase.fits {n : Nat} {x : Nonterminal} {ts : List Token} {e : SourceExpr} :
    Phrase n x ts e → ¬ OpensGroup .operand (ts.map Token.lexeme) → ∀ {m : Nat},
      e.height + ownNesting x ≤ m + 1 → Phrase m x ts e
  | .test h, hg, m, hm => by
    have hpos := h.height_pos
    have hm : SourceExpr.height _ + 1 ≤ m + 1 := hm
    obtain ⟨m, rfl⟩ : ∃ k, m = k + 1 := ⟨m - 1, by omega⟩
    exact .test (h.fits hg (Nat.le_of_succ_le_succ hm))
  | .choice hq hc ht ha hb, hg, m, hm => by
    simp only [List.map_append, List.map_cons, opensGroup_append, opensGroup_cons, not_or,
      ht.derives.due_eq, hq, Due.next_question, ha.derives.due_eq, hc] at hg
    obtain ⟨hgt, -, hga, -, hgb⟩ := hg
    have hle := @height_add_le_of_mem _ _ _ hm
    have hone : 1 ≤ m := Nat.le_trans (Nat.le_add_left 1 _) (hle List.mem_cons_self)
    obtain ⟨m, rfl⟩ : ∃ k, m = k + 1 := ⟨m - 1, by omega⟩
    exact .choice hq hc (ht.fits hgt (Nat.le_of_succ_le (hle (by simp))))
      (ha.fits hga (hle (by simp))) (hb.fits hgb (hle (by simp)))
  | .tighter hp h, hg, _, hm => .tighter hp (h.fits hg hm)
  | .connect op ho hlevel hl hr, hg, m, hm => by
    simp only [List.map_append, List.map_cons, opensGroup_append, opensGroup_cons, not_or,
      hl.derives.due_eq, ho, Due.next_connective] at hg
    obtain ⟨hgl, -, hgr⟩ := hg
    rw [SourceExpr.height, note_join] at hm
    have hle := @height_add_le_of_mem _ _ _ hm
    exact .connect op ho hlevel (hl.fits hgl (Nat.le_succ_of_le (hle (by simp))))
      (hr.fits hgr (Nat.le_succ_of_le (hle (by simp))))
  | .operand h, hg, _, hm => .operand (h.fits hg hm)
  | .unary op ho h, hg, m, hm => by
    simp only [List.map_cons, opensGroup_cons, not_or, ho, Due.next_unary] at hg
    have hpos := h.height_pos
    have hle : SourceExpr.height _ + 0 ≤ m := height_add_le_of_mem hm (List.mem_singleton.2 rfl)
    obtain ⟨m, rfl⟩ : ∃ k, m = k + 1 := ⟨m - 1, by omega⟩
    exact .unary op ho (h.fits hg.2 hle)
  | .plain h, hg, _, hm => .plain (h.fits hg hm)
  | .head h, hg, _, hm => .head (h.fits hg hm)
  | .member hd hk h, hg, m, hm => by
    simp only [List.map_append, opensGroup_append, not_or] at hg
    have hle := height_add_le_of_mem hm (List.mem_singleton.2 rfl)
    exact .member hd hk (h.fits hg.1 (Nat.le_succ_of_le hle))
  | .index ho hc h hk, hg, m, hm => by
    simp only [List.map_append, List.map_cons, opensGroup_append, opensGroup_cons, not_or,
      h.derives.due_eq, ho] at hg
    obtain ⟨hge, -, hgk, -⟩ := hg
    have hle := @height_add_le_of_mem _ _ _ hm
    exact .index ho hc (h.fits hge (Nat.le_succ_of_le (hle (by simp))))
      (hk.fits hgk (Nat.succ_le_succ (hle (by simp))))
  | .call ho hc h hes, hg, m, hm => by
    simp only [List.map_append, List.map_cons, opensGroup_append, opensGroup_cons, not_or,
      h.derives.due_eq, ho] at hg
    obtain ⟨hge, -, hges, -⟩ := hg
    have hle := @height_add_le_of_mem _ _ _ hm
    exact .call ho hc (h.fits hge (Nat.le_succ_of_le (hle (by simp))))
      (hes.fits hges fun e he => hle (by simp [he]))
  | .leaf h, _, _, _ => .leaf h
  | .group ho _ _, hg, _, _ => by
    rw [List.map_cons, opensGroup_cons] at hg
    exact absurd (.inl ⟨ho, rfl⟩) hg
  | .array ho hc hes, hg, m, hm => by
    simp only [List.map_append, List.map_cons, opensGroup_append, opensGroup_cons, not_or, ho] at hg
    obtain ⟨-, hges, -⟩ := hg
    exact .array ho hc (hes.fits hges fun e he => height_add_le_of_mem hm he)

theorem PhraseItems.fits {n : Nat} {ts : List Token} {es : List SourceExpr} :
    PhraseItems n ts es → ¬ OpensGroup .operand (ts.map Token.lexeme) → ∀ {m : Nat},
      (∀ e ∈ es, e.height ≤ m) → PhraseItems m ts es
  | .nil, _, _, _ => .nil
  | .last h, hg, _, hm => .last (h.fits hg (Nat.succ_le_succ (hm _ (by simp))))
  | .more hq h hes, hg, m, hm => by
    simp only [List.map_append, List.map_cons, opensGroup_append, opensGroup_cons, not_or,
      h.derives.due_eq, hq] at hg
    obtain ⟨hge, -, hges⟩ := hg
    obtain ⟨hle, hles⟩ := List.forall_mem_cons.1 hm
    exact .more hq (h.fits hge (Nat.succ_le_succ hle)) (hes.fits hges hles)

end

end SigilExpr.Parser
