import SigilExpr.Expr.Basic
import SigilExpr.Fault
import SigilExpr.Token.Basic

/-!
# From tokens to an expression

Operators with two operands bind at ten levels, all from the left. One loop climbs through all of
them: it goes on with the operators that bind at a least level or tighter, and the right operand of
an operator takes up those that bind tighter than this one. Parentheses, brackets, branches and
operands of operators before them lie one level deeper in the nesting.

The parser recurses on the nesting that is left. The loops at one depth are bounded by the number of
tokens that are left, which each round makes smaller.
-/

set_option autoImplicit false

namespace SigilExpr

namespace Lexeme

def connective? : Lexeme → Option Connective
  | .orOr => some (.logical .or)
  | .andAnd => some (.logical .and)
  | .pipe => some (.binary .bitOr)
  | .caret => some (.binary .bitXor)
  | .amp => some (.binary .bitAnd)
  | .eqEq => some (.binary .eq)
  | .notEq => some (.binary .notEq)
  | .eqEqEq => some (.binary .strictEq)
  | .notEqEq => some (.binary .strictNotEq)
  | .lt => some (.binary .lt)
  | .lte => some (.binary .lte)
  | .gt => some (.binary .gt)
  | .gte => some (.binary .gte)
  | .ident name =>
    if name = "in" then some (.binary .isIn)
    else if name = "instanceof" then some (.binary .instanceOf)
    else none
  | .shl => some (.binary .shl)
  | .shr => some (.binary .shr)
  | .ushr => some (.binary .ushr)
  | .plus => some (.binary .add)
  | .minus => some (.binary .sub)
  | .star => some (.binary .mul)
  | .slash => some (.binary .div)
  | .percent => some (.binary .mod)
  | _ => none

def unary? : Lexeme → Option UnaryOp
  | .minus => some .neg
  | .plus => some .plus
  | .bang => some .not
  | .tilde => some .bitNot
  | .ident name =>
    if name = "typeof" then some .typeof
    else if name = "void" then some .void
    else if name = "delete" then some .delete
    else none
  | _ => none

def propertyName? : Lexeme → Option String
  | .ident name => some name
  | .bool b => some (if b then "true" else "false")
  | .null => some "null"
  | _ => none

def restriction? : Lexeme → Option Restriction
  | .lbrace => some .objectLiteral
  | .ellipsis => some .spread
  | .assign _ => some .assignment
  | .plusPlus => some .update
  | .minusMinus => some .update
  | .arrow => some .arrowFunction
  | _ => none

end Lexeme

/-- Where a parser stands: the bytes of the token before it, and the tokens after it, counted. -/
structure Cursor where
  previous : Span
  rest : List Token
  count : Nat
  count_eq : count = rest.length

namespace Cursor

def ofTokens (tokens : List Token) : Cursor := ⟨⟨0, 0⟩, tokens, tokens.length, rfl⟩

/-- The token to be read next; after the last one, another end token. -/
def next (c : Cursor) : Token :=
  c.rest.head?.getD ⟨.eof, ⟨c.previous.stop, c.previous.stop⟩⟩

def lexeme (c : Cursor) : Lexeme := c.next.lexeme

def start (c : Cursor) : Nat := c.next.span.start

def advance (c : Cursor) : Cursor :=
  ⟨c.next.span, c.rest.tail, c.count - 1, by rw [c.count_eq, List.length_tail]⟩

def malformed (c : Cursor) (cause : Malformation) : Fault :=
  .malformed cause c.next.span

/-- The fault that the next token is, where something else was needed. -/
def instead (c : Cursor) (cause : Malformation) : Fault :=
  match c.lexeme.restriction? with
  | some restriction => .restricted restriction c.start
  | none => c.malformed cause

def misplaced (c : Cursor) (place : Place) : Fault :=
  if c.lexeme = .eof then c.malformed (.endOfExpression (some place))
  else c.instead (.unexpectedToken place)

/-- The cursor after the next token, which has to be `l`. -/
def require (c : Cursor) (l : Lexeme) (missing : Missing) : Except Fault Cursor :=
  if c.lexeme = l then .ok c.advance else .error (c.instead (.missing missing))

end Cursor

namespace Parser

/-- A parser of one expression: what it read, and the cursor after that. -/
abbrev Step := Cursor → Except Fault (SourceExpr × Cursor)

def maxHeight (es : List SourceExpr) : Nat :=
  es.foldl (fun h e => max h e.height) 0

/--
Finishes a node that began at byte `start` and ends before the cursor; a node higher than the limit
is a fault at its last token.
-/
def finish (limit start : Nat) (c : Cursor) (children : List SourceExpr)
    (form : Mark → SourceExpr) : Except Fault (SourceExpr × Cursor) :=
  let height := 1 + maxHeight children
  if limit < height then .error (.malformed (.tooDeep limit) c.previous)
  else .ok (form ⟨⟨start, c.previous.stop⟩, height⟩, c)

def connect (op : Connective) (left right : SourceExpr) (mark : Mark) : SourceExpr :=
  match op with
  | .binary op => .binary mark op left right
  | .logical op => .logical mark op left right

/-- Goes on after a left operand with the operators of level `least` or tighter. The right operand
of one begins at the next token and goes on with all that is tighter than the operator itself. -/
def climb (limit : Nat) (operand : Step) :
    Nat → Nat → Nat → SourceExpr → Cursor → Except Fault (SourceExpr × Cursor)
  | 0, _, _, left, c => .ok (left, c)
  | fuel + 1, least, start, left, c =>
    match c.lexeme.connective? with
    | none => .ok (left, c)
    | some op =>
      if op.level < least then .ok (left, c)
      else do
        let (right, rest) ← operand c.advance
        let (right, rest) ← climb limit operand fuel (op.level + 1) c.advance.start right rest
        let (left, rest) ← finish limit start rest [left, right] (connect op left right)
        climb limit operand fuel least start left rest

/-- Reads operands with operators of level `least` or tighter between them. -/
def binary (limit : Nat) (operand : Step) (least : Nat) : Step := fun c => do
  let (left, rest) ← operand c
  climb limit operand c.count least c.start left rest

/-- Reads expressions up to a closing token, with commas between and perhaps one after them. -/
def items (inner : Step) (close : Lexeme) (missing : Missing) :
    Nat → Cursor → Except Fault (List SourceExpr × Cursor)
  | 0, c => .error (c.instead (.missing missing))
  | fuel + 1, c =>
    if c.lexeme = close then .ok ([], c.advance)
    else do
      let (e, c) ← inner c
      if c.lexeme = .comma then
        let (es, c) ← items inner close missing fuel c.advance
        return (e :: es, c)
      else
        let c ← c.require close missing
        return ([e], c)

def primary (limit : Nat) (inner : Step) : Step := fun c =>
  let leaf (form : Mark → SourceExpr) := finish limit c.start c.advance [] form
  match c.lexeme with
  | .number x => leaf (.number · x)
  | .string s => leaf (.string · s)
  | .bool b => leaf (.bool · b)
  | .null => leaf .null
  | .ident name =>
    if name = "new" then .error (.restricted .construction c.start) else leaf (.ident · name)
  | .lparen => do
    let (e, rest) ← inner c.advance
    let rest ← rest.require .rparen .groupEnd
    return (e.withNote ⟨⟨c.start, rest.previous.stop⟩, e.height⟩, rest)
  | .lbracket => do
    let (es, rest) ← items inner .rbracket .arrayEnd c.count c.advance
    finish limit c.start rest es (.array · es)
  | .eof => .error (c.malformed (.endOfExpression none))
  | _ => .error (c.misplaced .operand)

def suffixes (limit : Nat) (inner : Step) (start : Nat) :
    Nat → SourceExpr → Cursor → Except Fault (SourceExpr × Cursor)
  | 0, e, c => .ok (e, c)
  | fuel + 1, e, c =>
    match c.lexeme with
    | .dot =>
      match c.advance.lexeme.propertyName? with
      | none => .error (c.advance.misplaced .propertyName)
      | some name => do
        let (e, c) ← finish limit start c.advance.advance [e] (.member · e name)
        suffixes limit inner start fuel e c
    | .lbracket => do
      let (key, c) ← inner c.advance
      let c ← c.require .rbracket .keyEnd
      let (e, c) ← finish limit start c [e, key] (.index · e key)
      suffixes limit inner start fuel e c
    | .lparen => do
      let (args, c) ← items inner .rparen .argumentsEnd c.count c.advance
      let (e, c) ← finish limit start c (e :: args) (.call · e args)
      suffixes limit inner start fuel e c
    | _ => .ok (e, c)

def operand (limit : Nat) (deeper inner : Step) : Step := fun c =>
  match c.lexeme.unary? with
  | some op => do
    let (e, rest) ← deeper c.advance
    finish limit c.start rest [e] (.unary · op e)
  | none =>
    if c.lexeme = .plusPlus ∨ c.lexeme = .minusMinus then .error (c.misplaced .startOfOperand)
    else do
      let (e, rest) ← primary limit inner c
      suffixes limit inner c.start rest.count e rest

def conditional (limit : Nat) (test inner : Step) : Step := fun c => do
  let (t, rest) ← test c
  if rest.lexeme = .question then
    let (a, rest) ← inner rest.advance
    let rest ← rest.require .colon .colon
    let (b, rest) ← inner rest
    finish limit c.start rest [t, a, b] (.conditional · t a b)
  else
    return (t, rest)

/-- What may be read one level deeper in the nesting. -/
inductive Goal where
  | expression
  | operand

/-- Reads an expression or an operand with `depth` levels of nesting left. -/
def descend (limit : Nat) : Nat → Goal → Step
  | 0, _, c => .error (c.malformed (.tooDeep limit))
  | depth + 1, goal, c =>
    let inner := descend limit depth .expression
    let operand := operand limit (descend limit depth .operand) inner
    match goal with
    | .operand => operand c
    | .expression => conditional limit (binary limit operand 1) inner c

end Parser

/-- The single expression that tokens spell, none of its nodes higher than `limit`. -/
def parse (limit : Nat) (tokens : List Token) : Except Fault SourceExpr := do
  let (e, c) ← Parser.descend limit limit .expression (.ofTokens tokens)
  match c.lexeme with
  | .eof => .ok e
  | .comma => .error (c.malformed .secondExpression)
  | .semicolon => .error (c.malformed .statement)
  | _ => .error (c.misplaced .afterExpression)

end SigilExpr
