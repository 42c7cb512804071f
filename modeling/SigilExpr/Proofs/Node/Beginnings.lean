import SigilExpr.Proofs.Node.Parts

/-!
# How the text of a tree begins

The first character of a head tells its form, except that all forms in parentheses begin alike and
that a literal begins in ways of its own. An operator before its operand begins like no tree,
although `typeof` shares its first letter with a literal. Between two operands stands a word without
blanks.
-/

set_option autoImplicit false

namespace SigilExpr

open Text

section Beginnings

theorem exists_unaryText (op : UnaryOp) : ∃ c cs, (Node.unaryText op).toList = c :: cs ∧
    (c ∈ ['-', '+', '!', '~', 'v', 'd'] ∨ c = 't' ∧ ∃ ds, cs = 'y' :: ds) := by
  cases op <;> simp [Node.unaryText, UnaryOp.spelling, UnaryOp.isWord]

theorem unaryText_append_inj {op op' : UnaryOp} {u v : List Char}
    (h : (Node.unaryText op).toList ++ u = (Node.unaryText op').toList ++ v) :
    op = op' ∧ u = v := by
  have heq : op = op' := by
    cases op <;> cases op' <;> simp [Node.unaryText, UnaryOp.spelling, UnaryOp.isWord] at h ⊢
  subst heq
  exact ⟨rfl, List.append_cancel_left h⟩

theorem spelling_append_ne (op : Connective) (u v : List Char) :
    op.spelling.toList ++ u ≠ '?' :: v := by
  have hfirst : ∃ c cs, op.spelling.toList = c :: cs ∧ c ≠ '?' := by
    rcases op with op | op <;> cases op <;> exact ⟨_, _, rfl, by decide⟩
  obtain ⟨c, cs, hop, hc⟩ := hfirst
  rw [hop]
  exact fun h => hc (List.cons.inj h).1

theorem spelling_no_blank (op : Connective) : ∀ c ∈ op.spelling.toList, (c != ' ') = true :=
  List.all_eq_true.1 (by rcases op with op | op <;> cases op <;> rfl)

theorem spelling_injective {op op' : Connective} (h : op.spelling.toList = op'.spelling.toList) :
    op = op' := by
  have hscan := op.scan_spelling 0
  rw [h, op'.scan_spelling 0] at hscan
  exact (Connective.lexeme_injective (Prod.mk.inj (Except.ok.inj hscan)).1).symm

/-- The text begins as that of a literal does. -/
inductive BeginsLiteral : List Char → Prop where
  | digit {c : Char} {cs : List Char} : c.isDigit = true → BeginsLiteral (c :: cs)
  | letter {c : Char} {cs : List Char} : c ∈ ['n', 'f', '"'] → BeginsLiteral (c :: cs)
  | true {cs : List Char} : BeginsLiteral ('t' :: 'r' :: cs)

theorem BeginsLiteral.append {cs : List Char} (h : BeginsLiteral cs) (u : List Char) :
    BeginsLiteral (cs ++ u) := by
  cases h with
  | digit hc => exact .digit hc
  | letter hc => exact .letter hc
  | true => exact .true

theorem BeginsLiteral.notMem {c : Char} {cs : List Char} (h : BeginsLiteral (c :: cs)) :
    c ∉ ['$', 'a', '(', '[', ')', ']', '-', '+', '!', '~', 'v', 'd'] := by
  cases h with
  | digit hc =>
    intro hmem
    have hsigns : ['$', 'a', '(', '[', ')', ']', '-', '+', '!', '~', 'v', 'd'].all
        (fun c => !c.isDigit) := rfl
    have hdigit := List.all_eq_true.1 hsigns c hmem
    rw [hc] at hdigit
    cases hdigit
  | letter hc =>
    simp only [List.mem_cons, List.not_mem_nil, or_false] at hc
    rcases hc with rfl | rfl | rfl <;> decide
  | true => decide

theorem beginsLiteral_of_literal {v : Value} (hv : v.Literal) : BeginsLiteral v.text.toList := by
  cases v with
  | null => exact .letter (by decide)
  | bool b =>
    cases b with
    | false => exact .letter (by decide)
    | true => exact .true
  | string s =>
    have htext : (Value.string s).text.toList = _ := toList_quoted s
    rw [htext]
    exact .letter (by decide)
  | number n =>
    obtain ⟨d, ds, htext, hd⟩ := Number.Unsigned.exists_digit hv
    have htext : (Value.number n).text.toList = _ := htext
    rw [htext]
    exact .digit hd
  | array _ => cases hv
  | object _ => cases hv

end Beginnings

namespace Head

variable {h k : Head} {u v : List Char}

/-- What the text of a head begins with, unless it is that of a literal. -/
def opening : Head → Option Char
  | .const _ => none
  | .root => some '$'
  | .helper _ _ => some 'a'
  | .unary _ _ | .connect _ _ _ | .conditional _ _ _ => some '('
  | .array _ => some '['

theorem opening_cases (hplain : h.Plain) :
    h.opening = none ∧ BeginsLiteral h.chars ∨
      ∃ c cs, h.opening = some c ∧ h.chars = c :: cs ∧ c ∈ ['$', 'a', '(', '['] := by
  cases h with
  | const v => exact .inl ⟨rfl, beginsLiteral_of_literal hplain⟩
  | _ => exact .inr ⟨_, _, rfl, rfl, by decide⟩

theorem opening_eq (hh : h.Plain) (hk : k.Plain) (heq : h.chars ++ u = k.chars ++ v) :
    h.opening = k.opening := by
  have hopen : ∀ c ∈ ['$', 'a', '(', '['],
      c ∈ ['$', 'a', '(', '[', ')', ']', '-', '+', '!', '~', 'v', 'd'] :=
    fun _ => List.mem_append_left [')', ']', '-', '+', '!', '~', 'v', 'd']
  rcases opening_cases hh with ⟨ho, hb⟩ | ⟨c, cs, ho, hc, hmem⟩ <;>
    rcases opening_cases hk with ⟨ho', hb'⟩ | ⟨d, ds, ho', hd, hmem'⟩
  · rw [ho, ho']
  · have hb := hb.append u
    rw [heq, hd] at hb
    exact absurd (hopen d hmem') hb.notMem
  · have hb' := hb'.append v
    rw [← heq, hc] at hb'
    exact absurd (hopen c hmem) hb'.notMem
  · rw [hc, hd] at heq
    rw [ho, ho', (List.cons.inj heq).1]

end Head

namespace Node

variable {n : Node} {u v : List Char}

/-- No tree begins like a closing bracket or an operator before its operand. -/
theorem Lowered.begins (h : n.Lowered) (u : List Char) :
    BeginsLiteral (n.chars ++ u) ∨ ∃ c cs, n.chars ++ u = c :: cs ∧ c ∈ ['$', 'a', '(', '['] := by
  rw [chars_eq_append, List.append_assoc]
  rcases Head.opening_cases h.head_plain with ⟨-, hb⟩ | ⟨c, cs, -, hc, hmem⟩
  · exact .inl (hb.append _)
  · exact .inr ⟨c, _, by rw [hc]; rfl, hmem⟩

theorem Lowered.not_close (h : n.Lowered) {c : Char} (hc : c = ')' ∨ c = ']') :
    c :: v ≠ n.chars ++ u := by
  intro heq
  rcases h.begins u with hb | ⟨d, ds, hd, hmem⟩
  · rw [← heq] at hb
    have hnot := hb.notMem
    rcases hc with rfl | rfl <;> simp at hnot
  · obtain ⟨rfl, -⟩ := List.cons.inj (heq.trans hd)
    rcases hc with rfl | rfl <;> simp at hmem

theorem Lowered.not_unary (h : n.Lowered) (op : UnaryOp) :
    (unaryText op).toList ++ v ≠ n.chars ++ u := by
  intro heq
  obtain ⟨c, cs, hop, hc⟩ := exists_unaryText op
  rw [hop] at heq
  rcases h.begins u with hb | ⟨d, ds, hd, hmem⟩
  · rw [← heq] at hb
    rcases hc with hc | ⟨rfl, ds, rfl⟩
    · have hnot := hb.notMem
      simp only [List.mem_cons, List.not_mem_nil, or_false, not_or] at hc hnot
      tauto
    · cases hb with
      | digit hdigit => cases hdigit
      | letter hletter => simp at hletter
  · obtain ⟨rfl, -⟩ := List.cons.inj (heq.trans hd)
    rcases hc with hc | ⟨rfl, -⟩
    · simp only [List.mem_cons, List.not_mem_nil, or_false] at hc hmem
      rcases hmem with rfl | rfl | rfl | rfl <;> simp at hc
    · simp at hmem

end Node

end SigilExpr
