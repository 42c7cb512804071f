import SigilExpr.Binary64.Basic
import SigilExpr.Text.Location

/-!
# Tokens

A lexeme is what one word of a source says, and a token is a lexeme with its place. Punctuation is
spelled by one table, which the lexer reads from the longest spelling to the shortest.
-/

set_option autoImplicit false

namespace SigilExpr

inductive Lexeme where
  | number (x : Binary64)
  | string (s : String)
  | bool (b : Bool)
  | null
  | ident (name : String)
  | plus
  | minus
  | star
  | slash
  | percent
  | lparen
  | rparen
  | lbracket
  | rbracket
  | lbrace
  | rbrace
  | comma
  | dot
  | ellipsis
  | question
  | colon
  | semicolon
  | bang
  | tilde
  | eqEq
  | eqEqEq
  | notEq
  | notEqEq
  | lt
  | lte
  | gt
  | gte
  | shl
  | shr
  | ushr
  | amp
  | pipe
  | caret
  | andAnd
  | orOr
  | assign (operator : String)
  | arrow
  | plusPlus
  | minusMinus
  | eof
deriving DecidableEq, Inhabited

/-- A lexeme with the bytes that it occupies. -/
structure Token where
  lexeme : Lexeme
  span : Span
deriving DecidableEq, Inhabited

namespace Lexeme

/-- The spellings of punctuation, a longer one before each of its beginnings. -/
def punctuation : List (String × Lexeme) :=
  [(">>>=", .assign ">>>="),
    ("===", .eqEqEq), ("!==", .notEqEq), (">>>", .ushr), ("...", .ellipsis),
    ("<<=", .assign "<<="), (">>=", .assign ">>="), ("&&=", .assign "&&="),
    ("||=", .assign "||="),
    ("=>", .arrow), ("==", .eqEq), ("!=", .notEq), ("<=", .lte), (">=", .gte),
    ("<<", .shl), (">>", .shr), ("&&", .andAnd), ("||", .orOr), ("++", .plusPlus),
    ("--", .minusMinus),
    ("+=", .assign "+="), ("-=", .assign "-="), ("*=", .assign "*="), ("/=", .assign "/="),
    ("%=", .assign "%="), ("&=", .assign "&="), ("|=", .assign "|="), ("^=", .assign "^="),
    ("=", .assign "="),
    ("+", .plus), ("-", .minus), ("*", .star), ("/", .slash), ("%", .percent),
    ("(", .lparen), (")", .rparen), ("[", .lbracket), ("]", .rbracket),
    ("\x7b", .lbrace), ("\x7d", .rbrace),
    (",", .comma), (".", .dot), ("?", .question), (":", .colon), (";", .semicolon),
    ("!", .bang), ("~", .tilde), ("<", .lt), (">", .gt), ("&", .amp), ("|", .pipe), ("^", .caret)]

/-- The longest punctuation that `cs` begins with, and its length. -/
def punctuation? (cs : List Char) : Option (Lexeme × Nat) :=
  punctuation.findSome? fun entry =>
    if entry.1.toList.isPrefixOf cs then some (entry.2, entry.1.length) else none

end Lexeme

def isNameStart (c : Char) : Bool :=
  c.isAlpha || c == '_' || c == '$'

def isNameRest (c : Char) : Bool :=
  c.isAlphanum || c == '_' || c == '$'

def isName : List Char → Bool
  | [] => false
  | c :: cs => isNameStart c && cs.all isNameRest

end SigilExpr
