import Mathlib.Data.String.Basic
import SigilExpr.Node.OfExpr
import SigilExpr.Proofs.Syntax.Acceptance
import SigilExpr.Proofs.Syntax.Subexpressions

/-!
# The helpers that an expression names

The names of helpers can be read off the lexemes of a source, off the expression that they spell,
and off its compiled tree. All three readings give the same names in the same order, so it does not
matter on which of them a registry is asked.

A name after a dot is the name of a property, however it is spelled, and is left out of all three.
-/

set_option autoImplicit false

namespace SigilExpr

theorem isSigilName_dollar : isSigilName "$" = false := rfl

theorem isSigilName_this : isSigilName "this" = false := rfl

namespace Reference

theorem ofName_eq_helper_iff {name : String} :
    ofName name = .helper ↔ isSigilName name = true := by
  unfold ofName
  split
  · next h => rcases h with rfl | rfl <;> simp [isSigilName_dollar, isSigilName_this]
  · split <;> simp [*]

end Reference

namespace Lexeme

/-- The name of a helper that a lexeme is spelled as. -/
def sigilName? : Lexeme → Option String
  | .ident name => if isSigilName name then some name else none
  | _ => none

/-- The names of helpers in a row of lexemes. `afterDot` tells whether the row follows a dot. -/
def helperNames : Bool → List Lexeme → List String
  | _, [] => []
  | afterDot, l :: ls =>
    (if afterDot then [] else l.sigilName?.toList) ++ helperNames (l = .dot) ls

section

variable {l : Lexeme} {ls ms : List Lexeme}

theorem helperNames_cons (h : l.sigilName? = none) (b : Bool) :
    helperNames b (l :: ls) = helperNames (l = .dot) ls := by
  simp [helperNames, h]

/-- A lexeme that names no helper separates the rows on both of its sides. -/
theorem helperNames_append_cons (h : l.sigilName? = none) (b : Bool) :
    helperNames b (ls ++ l :: ms) = helperNames b ls ++ helperNames (l = .dot) ms := by
  induction ls generalizing b with
  | nil => rw [List.nil_append, helperNames_cons h, helperNames, List.nil_append]
  | cons k ls ih => rw [List.cons_append, helperNames, helperNames, ih, List.append_assoc]

end

end Lexeme

/-- A lexeme that is neither the name of a helper nor a dot. -/
structure Lexeme.Separates (l : Lexeme) : Prop where
  sigilName?_eq : l.sigilName? = none
  ne_dot : l ≠ .dot

theorem UnaryOp.separates_lexeme (op : UnaryOp) : op.lexeme.Separates := by
  refine ⟨?_, op.lexeme_ne rfl⟩
  cases op <;> rfl

theorem Connective.separates_lexeme (op : Connective) : op.lexeme.Separates := by
  refine ⟨?_, op.lexeme_ne rfl⟩
  rcases op with op | op <;> cases op <;> rfl

namespace Token

def helperNames (tokens : List Token) : List String :=
  Lexeme.helperNames false (tokens.map lexeme)

variable {t d k : Token} {ts us : List Token}

theorem helperNames_cons (h : t.lexeme.Separates) : helperNames (t :: ts) = helperNames ts := by
  rw [helperNames, List.map_cons, Lexeme.helperNames_cons h.sigilName?_eq,
    decide_eq_false h.ne_dot, helperNames]

theorem helperNames_append_cons (h : t.lexeme.Separates) :
    helperNames (ts ++ t :: us) = helperNames ts ++ helperNames us := by
  rw [helperNames, List.map_append, List.map_cons,
    Lexeme.helperNames_append_cons h.sigilName?_eq, decide_eq_false h.ne_dot, helperNames,
    helperNames]

theorem helperNames_concat (h : t.lexeme.Separates) :
    helperNames (ts ++ [t]) = helperNames ts := by
  rw [helperNames_append_cons h]
  exact List.append_nil _

/-- The name of a property is not among the names of helpers. -/
theorem helperNames_append_property (hd : d.lexeme = .dot) :
    helperNames (ts ++ [d, k]) = helperNames ts := by
  have h : d.lexeme.sigilName? = none := by rw [hd]; rfl
  rw [helperNames, List.map_append, List.map_cons, Lexeme.helperNames_append_cons h,
    decide_eq_true hd]
  simp [Lexeme.helperNames, helperNames]

end Token

namespace Expr

variable {Note : Type}

/-- The name of a helper that the root of an expression is. -/
def helperName? : Expr Note → Option String
  | .ident _ name => if Reference.ofName name = .helper then some name else none
  | _ => none

/-- The names of helpers in an expression, in the order of its nodes. -/
def helperNames (e : Expr Note) : List String := e.nodes.filterMap helperName?

variable (n : Note) (e l r t a b k : Expr Note) (es : List (Expr Note)) (name : String)

/-- The names of helpers in an expression are that of its root and those of its children in turn. -/
theorem helperNames_eq_append :
    e.helperNames = e.helperName?.toList ++ e.children.flatMap helperNames := by
  rw [helperNames, nodes_eq_cons, List.filterMap_cons, List.filterMap_flatMap]
  cases e.helperName? <;> rfl

theorem helperNames_ident :
    (Expr.ident n name).helperNames = if isSigilName name then [name] else [] := by
  rw [helperNames_eq_append]
  by_cases h : isSigilName name = true <;>
    simp [helperName?, children, Reference.ofName_eq_helper_iff, h]

@[simp] theorem helperNames_unary (op : UnaryOp) :
    (Expr.unary n op e).helperNames = e.helperNames := by
  rw [helperNames_eq_append]
  simp [helperName?, children]

@[simp] theorem helperNames_binary (op : BinaryOp) :
    (Expr.binary n op l r).helperNames = l.helperNames ++ r.helperNames := by
  rw [helperNames_eq_append]
  simp [helperName?, children]

@[simp] theorem helperNames_logical (op : LogicalOp) :
    (Expr.logical n op l r).helperNames = l.helperNames ++ r.helperNames := by
  rw [helperNames_eq_append]
  simp [helperName?, children]

@[simp] theorem helperNames_conditional :
    (Expr.conditional n t a b).helperNames =
      t.helperNames ++ (a.helperNames ++ b.helperNames) := by
  rw [helperNames_eq_append]
  simp [helperName?, children]

@[simp] theorem helperNames_call :
    (Expr.call n e es).helperNames = e.helperNames ++ es.flatMap helperNames := by
  rw [helperNames_eq_append]
  simp [helperName?, children]

@[simp] theorem helperNames_member : (Expr.member n e name).helperNames = e.helperNames := by
  rw [helperNames_eq_append]
  simp [helperName?, children]

@[simp] theorem helperNames_index :
    (Expr.index n e k).helperNames = e.helperNames ++ k.helperNames := by
  rw [helperNames_eq_append]
  simp [helperName?, children]

@[simp] theorem helperNames_array :
    (Expr.array n es).helperNames = es.flatMap helperNames := by
  rw [helperNames_eq_append]
  simp [helperName?, children]

theorem helperNames_withNote : (e.withNote n).helperNames = e.helperNames := by
  rw [helperNames_eq_append, helperNames_eq_append e]
  cases e <;> rfl

theorem helperNames_of_refersTo_contextRoot {e : Expr Note}
    (h : e.refersTo .contextRoot = true) : e.helperNames = [] := by
  rw [helperNames_eq_append]
  cases e <;> simp_all [refersTo, helperName?, children]

end Expr

namespace Grammar

theorem helperNames_join {Note : Type} (m : Note) (op : Connective) (l r : Expr Note) :
    (join m op l r).helperNames = l.helperNames ++ r.helperNames := by
  cases op <;> simp [join]

theorem Leaf.helperNames_eq {Note : Type} {note : Note} {l : Lexeme} {e : Expr Note}
    (h : Leaf note l e) : e.helperNames = Lexeme.helperNames false [l] := by
  cases h with
  | ident name hname =>
    rw [Expr.helperNames_ident, Lexeme.helperNames, Lexeme.helperNames, Lexeme.sigilName?]
    by_cases h : isSigilName name = true <;> simp [h]
  | _ => rfl

end Grammar

namespace Parser

open Grammar

mutual

theorem Phrase.helperNames_eq {n : Nat} {x : Nonterminal} {ts : List Token} {e : SourceExpr} :
    Phrase n x ts e → Token.helperNames ts = e.helperNames
  | .test h | .tighter _ h | .operand h | .plain h | .head h => h.helperNames_eq
  | .choice hq hc ht ha hb => by
    rw [Expr.helperNames_conditional, ← ht.helperNames_eq, ← ha.helperNames_eq,
      ← hb.helperNames_eq, Token.helperNames_append_cons (hq ▸ ⟨rfl, by decide⟩),
      Token.helperNames_append_cons (hc ▸ ⟨rfl, by decide⟩)]
  | .connect op ho _ hl hr => by
    rw [helperNames_join, ← hl.helperNames_eq, ← hr.helperNames_eq,
      Token.helperNames_append_cons (ho ▸ op.separates_lexeme)]
  | .unary op ho h => by
    rw [Expr.helperNames_unary, ← h.helperNames_eq,
      Token.helperNames_cons (ho ▸ op.separates_lexeme)]
  | .member hd _ h => by
    rw [Expr.helperNames_member, ← h.helperNames_eq, Token.helperNames_append_property hd]
  | .index ho hc h hk => by
    rw [Expr.helperNames_index, ← h.helperNames_eq, ← hk.helperNames_eq,
      Token.helperNames_append_cons (ho ▸ ⟨rfl, by decide⟩),
      Token.helperNames_concat (hc ▸ ⟨rfl, by decide⟩)]
  | .call ho hc h hes => by
    rw [Expr.helperNames_call, ← h.helperNames_eq, ← hes.helperNames_eq,
      Token.helperNames_append_cons (ho ▸ ⟨rfl, by decide⟩),
      Token.helperNames_concat (hc ▸ ⟨rfl, by decide⟩)]
  | .leaf h => h.helperNames_eq.symm
  | .group ho hc h => by
    rw [Expr.helperNames_withNote, ← h.helperNames_eq,
      Token.helperNames_cons (ho ▸ ⟨rfl, by decide⟩),
      Token.helperNames_concat (hc ▸ ⟨rfl, by decide⟩)]
  | .array ho hc hes => by
    rw [Expr.helperNames_array, ← hes.helperNames_eq,
      Token.helperNames_cons (ho ▸ ⟨rfl, by decide⟩),
      Token.helperNames_concat (hc ▸ ⟨rfl, by decide⟩)]

theorem PhraseItems.helperNames_eq {n : Nat} {ts : List Token} {es : List SourceExpr} :
    PhraseItems n ts es → Token.helperNames ts = es.flatMap Expr.helperNames
  | .nil => rfl
  | .last h => by rw [h.helperNames_eq, List.flatMap_singleton]
  | .more hc h hes => by
    rw [List.flatMap_cons, ← h.helperNames_eq, ← hes.helperNames_eq,
      Token.helperNames_append_cons (hc ▸ ⟨rfl, by decide⟩)]

end

end Parser

end SigilExpr
