import SigilExpr.Proofs.Node.Lowering
import SigilExpr.Proofs.Syntax.Spans
import SigilExpr.Proofs.Token.Content
import SigilExpr.Proofs.Value.Text

/-!
# What stands in a compiled tree

The tree of a source holds no more than the words of the source and the rules of lowering allow: its
constants are literals, its names are spelled as names, no property is read of the whole context
itself, and no property is called as a value.
-/

set_option autoImplicit false

namespace SigilExpr

open SigilExpr.Parser SigilExpr.Grammar

namespace Parser

/-- What the root of an expression says is a lexeme of the row. -/
def Shown (ls : List Lexeme) : SourceExpr → Prop
  | .number _ x => .number x ∈ ls
  | .ident _ name => .ident name ∈ ls
  | .member _ _ name => ∃ l ∈ ls, PropertyName l name
  | _ => True

theorem Shown.mono {ls ms : List Lexeme} {e : SourceExpr} (h : Shown ls e) (hsub : ls ⊆ ms) :
    Shown ms e := by
  cases e with
  | number _ _ | ident _ _ => exact hsub h
  | member _ _ _ =>
    obtain ⟨l, hl, hname⟩ := h
    exact ⟨l, hsub hl, hname⟩
  | _ => trivial

theorem Shown.withNote {ls : List Lexeme} {e : SourceExpr} (h : Shown ls e) (m : Mark) :
    Shown ls (e.withNote m) := by
  cases e <;> exact h

theorem Shown.of_leaf {m : Mark} {l : Lexeme} {e : SourceExpr} (h : Leaf m l e) : Shown [l] e := by
  cases h with
  | number _ | ident _ _ => exact List.mem_cons_self
  | _ => trivial

theorem Phrase.shown {n : Nat} {x : Nonterminal} {ts : List Token} {e : SourceExpr} :
    Phrase n x ts e → Shown (ts.map Token.lexeme) e
  | .test h | .tighter _ h | .operand h | .plain h | .head h => h.shown
  | .choice _ _ _ _ _ | .unary _ _ _ | .index _ _ _ _ | .call _ _ _ _ | .array _ _ _ => trivial
  | .connect op _ _ _ _ => by cases op <;> trivial
  | .member _ hk _ => ⟨_, by simp, hk⟩
  | .leaf h => .of_leaf h
  | .group _ _ h => (h.shown.mono (by simp)).withNote _

end Parser

theorem isName_of_propertyName {l : Lexeme} {name : String} (h : PropertyName l name)
    (hl : l.Proper) : isName name.toList = true := by
  cases h with
  | ident name => exact hl
  | _ => decide

namespace SourceExpr

/-- The number at the root is unsigned, and a name at the root is spelled as one. -/
def Proper : SourceExpr → Prop
  | .number _ x => x.Unsigned
  | .ident _ name => isName name.toList = true
  | .member _ _ name => isName name.toList = true
  | _ => True

theorem proper_of_shown {ls : List Lexeme} {e : SourceExpr} (h : Shown ls e)
    (hls : ∀ l ∈ ls, l.Proper) : e.Proper := by
  cases e with
  | number _ _ | ident _ _ => exact hls _ h
  | member _ _ _ =>
    obtain ⟨l, hl, hname⟩ := h
    exact isName_of_propertyName hname (hls l hl)
  | _ => trivial

theorem proper_of_ofText {limit : Nat} {source : List Char} {e : SourceExpr}
    (h : ofText limit source = .ok e) : ∀ d : SourceExpr, d ∈ e.nodes → d.Proper := by
  intro d hd
  obtain ⟨ts, hrow, he, hheight⟩ := ofText_eq_ok_iff.1 h
  obtain ⟨row, hsub, hrow', -⟩ := he.exists_of_mem_nodes hheight d hd
  refine proper_of_shown hrow'.shown ?_
  intro l hl
  obtain ⟨t, ht, rfl⟩ := List.mem_map.1 hl
  exact hrow.proper t (hsub.subset ht)

end SourceExpr

namespace Node

/-- Whether the node is a property or what is under a key. -/
def isProperty : Node → Bool
  | .member _ _ | .index _ _ => true
  | _ => false

/-- What a root says that lowering has made. -/
def Plain : Node → Prop
  | .const v => v.Literal
  | .contextRead name | .helper name _ | .method _ name _ => isName name.toList = true
  | .member o name => o ≠ .contextRoot ∧ isName name.toList = true
  | .callValue f _ => f.isProperty = false
  | _ => True

theorem plain_ofName {name : String} (h : isName name.toList = true) : (ofName name).Plain := by
  unfold ofName
  split
  · exact h
  · trivial
  · exact h

theorem isProperty_ofName (name : String) : (ofName name).isProperty = false := by
  unfold ofName
  split <;> rfl

end Node

namespace SourceExpr

theorem Lowers.refersTo_contextRoot {e : SourceExpr} (h : Lowers e .contextRoot) :
    e.refersTo .contextRoot = true := by
  generalize hn : Node.contextRoot = n at h
  cases h with
  | ident name =>
    unfold Node.ofName at hn
    split at hn
    · cases hn
    · next hname => simp [Expr.refersTo, hname]
    · cases hn
  | _ => cases hn

theorem Lowers.isProperty_eq_false {f : SourceExpr} {n : Node} (h : Lowers f n)
    (hf : f.isValueCallee = true) : n.isProperty = false := by
  cases h with
  | ident name => exact Node.isProperty_ofName name
  | contextMember _ _ | member _ _ _ | index _ _ => cases hf
  | _ => rfl

theorem Lowers.plain {e : SourceExpr} {n : Node} (h : Lowers e n)
    (he : ∀ d : SourceExpr, d ∈ e.nodes → d.Proper) : n.Plain := by
  have hroot := he e e.self_mem_nodes
  cases h with
  | number hx => exact Number.unsigned_of_ofBinary64? hroot hx
  | ident name => exact Node.plain_ofName hroot
  | contextMember name _ => exact hroot
  | member name ho h =>
    refine ⟨?_, hroot⟩
    rintro rfl
    rw [h.refersTo_contextRoot] at ho
    cases ho
  | @method m k o n es ns name ho hes =>
    exact he _ (Expr.nodes_subset_of_mem_children List.mem_cons_self (Expr.self_mem_nodes _))
  | helper hname _ =>
    exact he _ (Expr.nodes_subset_of_mem_children List.mem_cons_self (Expr.self_mem_nodes _))
  | callValue hf h _ => exact h.isProperty_eq_false hf
  | _ => trivial

/-- Every node of the tree that a source is compiled to is plain. -/
theorem plain_of_toNode {limit : Nat} {source : List Char} {e : SourceExpr} {n : Node}
    (h : ofText limit source = .ok e) (hn : e.toNode = .ok n) : ∀ m ∈ n.nodes, m.Plain := by
  intro m hm
  obtain ⟨d, hd, hlowers⟩ := (lowers_of_toNode e hn).exists_of_mem_nodes hm
  have hbelow : ∀ d : SourceExpr, d ∈ e.nodes → ∀ c : SourceExpr, c ∈ d.nodes → c.Proper := by
    apply Expr.forall_mem_nodes
    · intro d hproper c hc x hx
      exact hproper x (Expr.nodes_subset_of_mem_children hc hx)
    · exact proper_of_ofText h
  exact hlowers.plain (hbelow d hd)

end SourceExpr

end SigilExpr
