import SigilExpr.Fault
import SigilExpr.Token.Number

/-!
# String literals

A string literal stands between two equal quotes. A backslash begins an escape: it names a control
character or a code point, hides a line break, or stands before a character that means itself.
-/

set_option autoImplicit false

namespace SigilExpr.Quoted

def code? (a b c d : Char) : Option Nat :=
  if [a, b, c, d].all NumberLiteral.isHexDigit then some (NumberLiteral.ofHexDigits [a, b, c, d])
  else none

/-- Whether a code is that of a character, which half of a surrogate pair is not. -/
def isScalar (code : Nat) : Bool :=
  code < 0xD800 || (0xDFFF < code && code < 0x110000)

def control? : Char → Option Char
  | 'n' => some '\n'
  | 't' => some '\t'
  | 'r' => some '\r'
  | '0' => some '\x00'
  | _ => none

/-- Puts what a piece of `n` characters means before what follows it. -/
def piece (meaning : List Char) (n : Nat) :
    Except Fault (List Char × Nat) → Except Fault (List Char × Nat)
  | .ok (rest, m) => .ok (meaning ++ rest, n + m)
  | .error f => .error f

/--
Reads a literal that began at byte `start` with `quote`, from byte `offset` on. The result is its
meaning and the count of the characters read, the closing quote included.
-/
def read (quote : Char) (start offset : Nat) : List Char → Except Fault (List Char × Nat)
  | [] => .error (.malformed (.unterminatedString start) ⟨start, offset⟩)
  | c :: cs =>
    if c = quote then .ok ([], 1)
    else if c = '\\' then
      match cs with
      | [] => .error (.malformed .unterminatedEscape ⟨offset, offset + 1⟩)
      | 'u' :: ds =>
        match ds with
        | x :: y :: z :: w :: rest =>
          match code? x y z w with
          | none => .error (.malformed .invalidEscape ⟨offset, offset + 2⟩)
          | some code =>
            if isScalar code then
              piece [Char.ofNat code] 6 (read quote start (offset + 6) rest)
            else .error (.malformed .invalidCodePoint ⟨offset, offset + 2⟩)
        | _ => .error (.malformed .invalidEscape ⟨offset, offset + 2⟩)
      | '\n' :: rest => piece [] 2 (read quote start (offset + 2) rest)
      | e :: rest =>
        piece [(control? e).getD e] 2 (read quote start (offset + 1 + e.utf8Size) rest)
    else if c = '\n' then .error (.malformed .newlineInString ⟨start, offset⟩)
    else piece [c] 1 (read quote start (offset + c.utf8Size) cs)

end SigilExpr.Quoted
