import SigilExpr.Decimal.Read
import SigilExpr.Binary64.Arith
import SigilExpr.Fault
import SigilExpr.Token.Basic

/-!
# Number literals

A number literal is hexadecimal, after `0x`, or decimal, with an optional fraction and an optional
power of ten. A decimal literal may not run into a name.
-/

set_option autoImplicit false

namespace SigilExpr.NumberLiteral

def isHexDigit (c : Char) : Bool :=
  c.isDigit || ('a' ≤ c && c ≤ 'f') || ('A' ≤ c && c ≤ 'F')

def hexValue (c : Char) : Nat :=
  if c.isDigit then c.toNat - '0'.toNat
  else if 'a' ≤ c then c.toNat - 'a'.toNat + 10
  else c.toNat - 'A'.toNat + 10

def ofHexDigits (cs : List Char) : Nat :=
  cs.foldl (fun n c => 16 * n + hexValue c) 0

/--
The number that hexadecimal digits spell. A natural of at most 64 bits is rounded once; beyond that
the number is rounded after every digit.
-/
def hexNumber (cs : List Char) : Binary64 :=
  let n := ofHexDigits cs
  if n < pow2 64 then .ofNat n
  else cs.foldl (fun x c => (x.mul (.ofNat 16)).add (.ofNat (hexValue c))) (.ofNat 0)

/-- The part of `cs` that a power of ten at its beginning takes. -/
def powerText : List Char → List Char
  | c :: cs =>
    if c = 'e' || c = 'E' then
      match cs with
      | s :: ds =>
        if s = '+' || s = '-' then c :: s :: ds.takeWhile Char.isDigit
        else c :: cs.takeWhile Char.isDigit
      | [] => [c]
    else []
  | [] => []

/-- The part of `cs` that a decimal literal at its beginning takes, well formed or not. -/
def decimalText (cs : List Char) : List Char :=
  let whole := cs.takeWhile Char.isDigit
  match cs.dropWhile Char.isDigit with
  | '.' :: rest =>
    whole ++ '.' :: rest.takeWhile Char.isDigit ++ powerText (rest.dropWhile Char.isDigit)
  | rest => whole ++ powerText rest

def beginsHex : List Char → Bool
  | '0' :: c :: _ => c == 'x' || c == 'X'
  | _ => false

def begins : List Char → Bool
  | '.' :: d :: _ => d.isDigit
  | c :: _ => c.isDigit
  | [] => false

/-- The number literal at the beginning of `cs`, which stands at byte `start`, and its length. -/
def scan (start : Nat) (cs : List Char) : Except Fault (Binary64 × Nat) :=
  if beginsHex cs then
    let digits := (cs.drop 2).takeWhile isHexDigit
    if digits.isEmpty then .error (.malformed .hexWithoutDigits ⟨start, start + 2⟩)
    else .ok (hexNumber digits, digits.length + 2)
  else
    let text := decimalText cs
    let stop := start + text.length
    match Decimal.unsigned? false text with
    | none => .error (.malformed .invalidNumber ⟨start, stop⟩)
    | some x =>
      match cs.drop text.length with
      | c :: _ =>
        if isNameStart c then .error (.malformed .nameAfterNumber ⟨start, stop + c.utf8Size⟩)
        else .ok (x, text.length)
      | [] => .ok (x, text.length)

end SigilExpr.NumberLiteral
