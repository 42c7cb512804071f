import SigilExpr.Expr.Parser
import SigilExpr.Token.Lexer

/-!
# The grammar of expressions

`Derives` says which rows of lexemes spell which bare tree, by one rule for each way to form an
expression. Operators with two operands stand at ten levels, as the table of the language lists
them by their spellings, and all of them bind from the left.

This module does NOT mention the parser: that the two agree is shown elsewhere.
-/

set_option autoImplicit false

namespace SigilExpr

def UnaryOp.lexeme : UnaryOp → Lexeme
  | .neg => .minus
  | .plus => .plus
  | .not => .bang
  | .bitNot => .tilde
  | .typeof => .ident "typeof"
  | .void => .ident "void"
  | .delete => .ident "delete"

def BinaryOp.lexeme : BinaryOp → Lexeme
  | .add => .plus
  | .sub => .minus
  | .mul => .star
  | .div => .slash
  | .mod => .percent
  | .eq => .eqEq
  | .notEq => .notEq
  | .strictEq => .eqEqEq
  | .strictNotEq => .notEqEq
  | .lt => .lt
  | .lte => .lte
  | .gt => .gt
  | .gte => .gte
  | .shl => .shl
  | .shr => .shr
  | .ushr => .ushr
  | .bitAnd => .amp
  | .bitOr => .pipe
  | .bitXor => .caret
  | .isIn => .ident "in"
  | .instanceOf => .ident "instanceof"

/-- The lexeme of an operator between two operands. -/
def Connective.lexeme : Connective → Lexeme
  | .binary op => op.lexeme
  | .logical .and => .andAnd
  | .logical .or => .orOr

/-- The lexeme of an operator is the one that its spelling reads as. -/
theorem Connective.scan_spelling (op : Connective) (offset : Nat) :
    Lexeme.scan offset op.spelling.toList = .ok (op.lexeme, op.spelling.length) := by
  rcases op with op | op <;> cases op <;> rfl

namespace Lexeme

theorem unary?_eq_some_iff {l : Lexeme} {op : UnaryOp} : l.unary? = some op ↔ l = op.lexeme := by
  constructor
  · intro h
    unfold unary? at h
    split at h <;> try split at h
    all_goals grind [UnaryOp.lexeme]
  · rintro rfl
    cases op <;> rfl

theorem connective?_eq_some_iff {l : Lexeme} {op : Connective} :
    l.connective? = some op ↔ l = op.lexeme := by
  constructor
  · intro h
    unfold connective? at h
    split at h <;> try split at h
    all_goals grind [Connective.lexeme, BinaryOp.lexeme]
  · rintro rfl
    rcases op with op | op <;> cases op <;> rfl

end Lexeme

namespace UnaryOp

/-- A lexeme that reads as no operator is the lexeme of none. -/
theorem lexeme_ne {l : Lexeme} (op : UnaryOp) (h : l.unary? = none) : op.lexeme ≠ l := by
  rintro rfl
  rw [Lexeme.unary?_eq_some_iff.2 rfl] at h
  cases h

theorem lexeme_ne_eof (op : UnaryOp) : op.lexeme ≠ .eof := op.lexeme_ne rfl

theorem lexeme_ne_close (op : UnaryOp) : op.lexeme ≠ .rparen ∧ op.lexeme ≠ .rbracket :=
  ⟨op.lexeme_ne rfl, op.lexeme_ne rfl⟩

theorem lexeme_injective {op op' : UnaryOp} (h : op.lexeme = op'.lexeme) : op = op' := by
  have h' : op.lexeme.unary? = some op' := Lexeme.unary?_eq_some_iff.2 h
  rw [Lexeme.unary?_eq_some_iff.2 rfl] at h'
  exact Option.some.inj h'

end UnaryOp

namespace Connective

theorem lexeme_ne {l : Lexeme} (op : Connective) (h : l.connective? = none) : op.lexeme ≠ l := by
  rintro rfl
  rw [Lexeme.connective?_eq_some_iff.2 rfl] at h
  cases h

theorem lexeme_ne_eof (op : Connective) : op.lexeme ≠ .eof := op.lexeme_ne rfl

theorem lexeme_injective {op op' : Connective} (h : op.lexeme = op'.lexeme) : op = op' := by
  have h' : op.lexeme.connective? = some op' := Lexeme.connective?_eq_some_iff.2 h
  rw [Lexeme.connective?_eq_some_iff.2 rfl] at h'
  exact Option.some.inj h'

theorem level_le (op : Connective) : op.level ≤ 10 := by
  rcases op with op | op <;> cases op <;> simp [level, BinaryOp.level, LogicalOp.level]

end Connective

namespace Grammar

inductive Nonterminal where
  | expression
  | level (p : Nat)
  | unary
  | chain
  | primary

/-- The spellings of the operators of each level, from the loosest level to the tightest. -/
def operatorsAt : Nat → List String
  | 1 => ["||"]
  | 2 => ["&&"]
  | 3 => ["|"]
  | 4 => ["^"]
  | 5 => ["&"]
  | 6 => ["==", "!=", "===", "!=="]
  | 7 => ["<", "<=", ">", ">=", "in", "instanceof"]
  | 8 => ["<<", ">>", ">>>"]
  | 9 => ["+", "-"]
  | 10 => ["*", "/", "%"]
  | _ => []

theorem mem_operatorsAt_iff {p : Nat} {op : Connective} :
    op.spelling ∈ operatorsAt p ↔ op.level = p := by
  constructor
  · intro h
    unfold operatorsAt at h
    split at h
    case h_11 => exact absurd h List.not_mem_nil
    all_goals rcases op with op | op <;> cases op <;> first | rfl | exact absurd h (by decide)
  · rintro rfl
    rcases op with op | op <;> cases op <;> decide

/-- The words that are no operands, although they are spelled as names. -/
def reservedWords : List String := ["new", "typeof", "void", "delete"]

/-- The lexemes that may stand after a point, each with the property that it names. -/
inductive PropertyName : Lexeme → String → Prop where
  | ident (name : String) : PropertyName (.ident name) name
  | true : PropertyName (.bool true) "true"
  | false : PropertyName (.bool false) "false"
  | null : PropertyName .null "null"

theorem propertyName?_eq_some_iff {l : Lexeme} {name : String} :
    l.propertyName? = some name ↔ PropertyName l name := by
  constructor
  · intro h
    unfold Lexeme.propertyName? at h
    split at h
    · obtain rfl := Option.some.inj h
      exact .ident _
    · next b =>
      obtain rfl := Option.some.inj h
      cases b
      · exact .false
      · exact .true
    · obtain rfl := Option.some.inj h
      exact .null
    · cases h
  · rintro (_ | _ | _ | _) <;> rfl

theorem PropertyName.ne_eof {l : Lexeme} {name : String} (h : PropertyName l name) : l ≠ .eof := by
  cases h <;> simp

/-- The lexemes that are operands by themselves, each with the expression that it is. -/
inductive Leaf {Note : Type} (note : Note) : Lexeme → Expr Note → Prop where
  | number (x : Binary64) : Leaf note (.number x) (.number note x)
  | string (s : String) : Leaf note (.string s) (.string note s)
  | bool (b : Bool) : Leaf note (.bool b) (.bool note b)
  | null : Leaf note .null (.null note)
  | ident (name : String) (h : name ∉ reservedWords) : Leaf note (.ident name) (.ident note name)

theorem Leaf.note_eq {Note : Type} {note : Note} {l : Lexeme} {e : Expr Note}
    (h : Leaf note l e) : e.note = note := by
  cases h <;> rfl

theorem Leaf.ne_close {Note : Type} {note : Note} {l : Lexeme} {e : Expr Note}
    (h : Leaf note l e) : l ≠ .rparen ∧ l ≠ .rbracket := by
  cases h <;> simp

theorem Leaf.ne_eof {Note : Type} {note : Note} {l : Lexeme} {e : Expr Note}
    (h : Leaf note l e) : l ≠ .eof := by
  cases h <;> simp

theorem Leaf.unary?_eq_none {Note : Type} {note : Note} {l : Lexeme} {e : Expr Note}
    (h : Leaf note l e) : l.unary? = none := by
  cases h with
  | ident name hname =>
    simp only [reservedWords, List.mem_cons, List.not_mem_nil, or_false, not_or] at hname
    simp [Lexeme.unary?, hname]
  | _ => rfl

/-- The expression of an operator between two operands. -/
def join {Note : Type} (note : Note) (op : Connective) (l r : Expr Note) : Expr Note :=
  match op with
  | .binary op => .binary note op l r
  | .logical op => .logical note op l r

@[simp] theorem note_join {Note : Type} (note : Note) (op : Connective) (l r : Expr Note) :
    (join note op l r).note = note := by
  cases op <;> rfl

mutual

/-- The rules of the grammar: a row of lexemes derives from a nonterminal and spells a tree. -/
inductive Derives : Nonterminal → List Lexeme → Expr Unit → Prop where
  | test {ls t} : Derives (.level 1) ls t → Derives .expression ls t
  | choice {ls ms ns t a b} : Derives (.level 1) ls t → Derives .expression ms a →
      Derives .expression ns b →
      Derives .expression (ls ++ .question :: (ms ++ .colon :: ns)) (.conditional () t a b)
  | tighter {p ls e} : p ≤ 10 → Derives (.level (p + 1)) ls e → Derives (.level p) ls e
  | connect {p ls ms l r} (op : Connective) : op.spelling ∈ operatorsAt p →
      Derives (.level p) ls l → Derives (.level (p + 1)) ms r →
      Derives (.level p) (ls ++ op.lexeme :: ms) (join () op l r)
  | operand {ls e} : Derives .unary ls e → Derives (.level 11) ls e
  | unary {ls e} (op : UnaryOp) : Derives .unary ls e →
      Derives .unary (op.lexeme :: ls) (.unary () op e)
  | plain {ls e} : Derives .chain ls e → Derives .unary ls e
  | head {ls e} : Derives .primary ls e → Derives .chain ls e
  | member {ls e k name} : Derives .chain ls e → PropertyName k name →
      Derives .chain (ls ++ [.dot, k]) (.member () e name)
  | index {ls ms e k} : Derives .chain ls e → Derives .expression ms k →
      Derives .chain (ls ++ .lbracket :: (ms ++ [.rbracket])) (.index () e k)
  | call {ls ms e es} : Derives .chain ls e → DerivesItems ms es →
      Derives .chain (ls ++ .lparen :: (ms ++ [.rparen])) (.call () e es)
  | leaf {l e} : Leaf () l e → Derives .primary [l] e
  | group {ls e} : Derives .expression ls e → Derives .primary (.lparen :: (ls ++ [.rparen])) e
  | array {ls es} : DerivesItems ls es →
      Derives .primary (.lbracket :: (ls ++ [.rbracket])) (.array () es)

/-- Expressions with commas between them, and perhaps one after the last. -/
inductive DerivesItems : List Lexeme → List (Expr Unit) → Prop where
  | nil : DerivesItems [] []
  | last {ls e} : Derives .expression ls e → DerivesItems ls [e]
  | more {ls ms e es} : Derives .expression ls e → DerivesItems ms es →
      DerivesItems (ls ++ .comma :: ms) (e :: es)

end

/-- What derives at a level derives at every looser one. -/
theorem Derives.loosen {p q : Nat} {ls : List Lexeme} {e : Expr Unit}
    (h : Derives (.level q) ls e) (hpq : p ≤ q) (hq : q ≤ 11) : Derives (.level p) ls e := by
  obtain ⟨k, rfl⟩ := Nat.exists_eq_add_of_le hpq
  induction k with
  | zero => exact h
  | succ k ih => exact ih (.tighter (by omega) h) (by omega) (by omega)

mutual

/-- A derivation: the rule that was used, with the derivations of its parts. -/
inductive Derivation : Nonterminal → Type where
  | test (t : Derivation (.level 1)) : Derivation .expression
  | choice (t : Derivation (.level 1)) (a b : Derivation .expression) : Derivation .expression
  | tighter {p : Nat} (hp : p ≤ 10) (d : Derivation (.level (p + 1))) : Derivation (.level p)
  | connect {p : Nat} (op : Connective) (hop : op.spelling ∈ operatorsAt p)
      (l : Derivation (.level p)) (r : Derivation (.level (p + 1))) : Derivation (.level p)
  | operand (d : Derivation .unary) : Derivation (.level 11)
  | unary (op : UnaryOp) (d : Derivation .unary) : Derivation .unary
  | plain (d : Derivation .chain) : Derivation .unary
  | head (d : Derivation .primary) : Derivation .chain
  | member (d : Derivation .chain) (k : Lexeme) (name : String) (hk : PropertyName k name) :
      Derivation .chain
  | index (d : Derivation .chain) (k : Derivation .expression) : Derivation .chain
  | call (d : Derivation .chain) (args : DerivationItems) : Derivation .chain
  | leaf (l : Lexeme) (e : Expr Unit) (h : Leaf () l e) : Derivation .primary
  | group (d : Derivation .expression) : Derivation .primary
  | array (items : DerivationItems) : Derivation .primary

inductive DerivationItems : Type where
  | nil : DerivationItems
  | last (d : Derivation .expression) : DerivationItems
  | more (d : Derivation .expression) (items : DerivationItems) : DerivationItems

end

mutual

def Derivation.lexemes {x : Nonterminal} : Derivation x → List Lexeme
  | .test d | .tighter _ d | .operand d | .plain d | .head d => d.lexemes
  | .choice t a b => t.lexemes ++ .question :: (a.lexemes ++ .colon :: b.lexemes)
  | .connect op _ l r => l.lexemes ++ op.lexeme :: r.lexemes
  | .unary op d => op.lexeme :: d.lexemes
  | .member d k _ _ => d.lexemes ++ [.dot, k]
  | .index d k => d.lexemes ++ .lbracket :: (k.lexemes ++ [.rbracket])
  | .call d args => d.lexemes ++ .lparen :: (args.lexemes ++ [.rparen])
  | .leaf l _ _ => [l]
  | .group d => .lparen :: (d.lexemes ++ [.rparen])
  | .array items => .lbracket :: (items.lexemes ++ [.rbracket])

def DerivationItems.lexemes : DerivationItems → List Lexeme
  | .nil => []
  | .last d => d.lexemes
  | .more d items => d.lexemes ++ .comma :: items.lexemes

end

mutual

def Derivation.tree {x : Nonterminal} : Derivation x → Expr Unit
  | .test d | .tighter _ d | .operand d | .plain d | .head d | .group d => d.tree
  | .choice t a b => .conditional () t.tree a.tree b.tree
  | .connect op _ l r => join () op l.tree r.tree
  | .unary op d => .unary () op d.tree
  | .member d _ name _ => .member () d.tree name
  | .index d k => .index () d.tree k.tree
  | .call d args => .call () d.tree args.trees
  | .leaf _ e _ => e
  | .array items => .array () items.trees

def DerivationItems.trees : DerivationItems → List (Expr Unit)
  | .nil => []
  | .last d => [d.tree]
  | .more d items => d.tree :: items.trees

end

mutual

theorem Derivation.derives {x : Nonterminal} : (d : Derivation x) → Derives x d.lexemes d.tree
  | .test d => .test d.derives
  | .choice t a b => .choice t.derives a.derives b.derives
  | .tighter hp d => .tighter hp d.derives
  | .connect op hop l r => .connect op hop l.derives r.derives
  | .operand d => .operand d.derives
  | .unary op d => .unary op d.derives
  | .plain d => .plain d.derives
  | .head d => .head d.derives
  | .member d _ _ hk => .member d.derives hk
  | .index d k => .index d.derives k.derives
  | .call d args => .call d.derives args.derives
  | .leaf _ _ h => .leaf h
  | .group d => .group d.derives
  | .array items => .array items.derives

theorem DerivationItems.derives : (ds : DerivationItems) → DerivesItems ds.lexemes ds.trees
  | .nil => .nil
  | .last d => .last d.derives
  | .more d items => .more d.derives items.derives

end

mutual

theorem Derives.exists_derivation {x : Nonterminal} {ls : List Lexeme} {e : Expr Unit} :
    Derives x ls e → ∃ d : Derivation x, d.lexemes = ls ∧ d.tree = e
  | .test h => by
    obtain ⟨d, rfl, rfl⟩ := h.exists_derivation
    exact ⟨.test d, rfl, rfl⟩
  | .choice ht ha hb => by
    obtain ⟨t, rfl, rfl⟩ := ht.exists_derivation
    obtain ⟨a, rfl, rfl⟩ := ha.exists_derivation
    obtain ⟨b, rfl, rfl⟩ := hb.exists_derivation
    exact ⟨.choice t a b, rfl, rfl⟩
  | .tighter hp h => by
    obtain ⟨d, rfl, rfl⟩ := h.exists_derivation
    exact ⟨.tighter hp d, rfl, rfl⟩
  | .connect op hop hl hr => by
    obtain ⟨l, rfl, rfl⟩ := hl.exists_derivation
    obtain ⟨r, rfl, rfl⟩ := hr.exists_derivation
    exact ⟨.connect op hop l r, rfl, rfl⟩
  | .operand h => by
    obtain ⟨d, rfl, rfl⟩ := h.exists_derivation
    exact ⟨.operand d, rfl, rfl⟩
  | .unary op h => by
    obtain ⟨d, rfl, rfl⟩ := h.exists_derivation
    exact ⟨.unary op d, rfl, rfl⟩
  | .plain h => by
    obtain ⟨d, rfl, rfl⟩ := h.exists_derivation
    exact ⟨.plain d, rfl, rfl⟩
  | .head h => by
    obtain ⟨d, rfl, rfl⟩ := h.exists_derivation
    exact ⟨.head d, rfl, rfl⟩
  | .member h hk => by
    obtain ⟨d, rfl, rfl⟩ := h.exists_derivation
    exact ⟨.member d _ _ hk, rfl, rfl⟩
  | .index h hk => by
    obtain ⟨d, rfl, rfl⟩ := h.exists_derivation
    obtain ⟨k, rfl, rfl⟩ := hk.exists_derivation
    exact ⟨.index d k, rfl, rfl⟩
  | .call h hes => by
    obtain ⟨d, rfl, rfl⟩ := h.exists_derivation
    obtain ⟨args, rfl, rfl⟩ := hes.exists_derivation
    exact ⟨.call d args, rfl, rfl⟩
  | .leaf h => ⟨.leaf _ _ h, rfl, rfl⟩
  | .group h => by
    obtain ⟨d, rfl, rfl⟩ := h.exists_derivation
    exact ⟨.group d, rfl, rfl⟩
  | .array hes => by
    obtain ⟨items, rfl, rfl⟩ := hes.exists_derivation
    exact ⟨.array items, rfl, rfl⟩

theorem DerivesItems.exists_derivation {ls : List Lexeme} {es : List (Expr Unit)} :
    DerivesItems ls es → ∃ ds : DerivationItems, ds.lexemes = ls ∧ ds.trees = es
  | .nil => ⟨.nil, rfl, rfl⟩
  | .last h => by
    obtain ⟨d, rfl, rfl⟩ := h.exists_derivation
    exact ⟨.last d, rfl, rfl⟩
  | .more h hes => by
    obtain ⟨d, rfl, rfl⟩ := h.exists_derivation
    obtain ⟨items, rfl, rfl⟩ := hes.exists_derivation
    exact ⟨.more d items, rfl, rfl⟩

end

/-- `Derives` holds of a row and a tree just if they are those of a derivation. -/
theorem derives_iff_exists_derivation {x : Nonterminal} {ls : List Lexeme} {e : Expr Unit} :
    Derives x ls e ↔ ∃ d : Derivation x, d.lexemes = ls ∧ d.tree = e := by
  constructor
  · exact Derives.exists_derivation
  · rintro ⟨d, rfl, rfl⟩
    exact d.derives

end Grammar

end SigilExpr
