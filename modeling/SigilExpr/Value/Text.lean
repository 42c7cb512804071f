import SigilExpr.Decimal.Layout
import SigilExpr.Value.Basic

/-!
# Values as text

The structured text of a value can be read back: strings are quoted and the parts of arrays and
objects bracketed. The plain text is what joining and concatenation use: a string is itself, an
array is its parts with commas between, and only an object keeps its structured text.
-/

set_option autoImplicit false

namespace SigilExpr

namespace Text

def quotedChar (c : Char) : List Char :=
  if c = '"' then ['\\', '"']
  else if c = '\\' then ['\\', '\\']
  else if c = '\x08' then ['\\', 'b']
  else if c = '\x0c' then ['\\', 'f']
  else if c = '\n' then ['\\', 'n']
  else if c = '\r' then ['\\', 'r']
  else if c = '\t' then ['\\', 't']
  else if c.toNat < 0x20 then
    ['\\', 'u', '0', '0', Nat.digitChar (c.toNat / 16), Nat.digitChar (c.toNat % 16)]
  else [c]

def quoted (s : String) : String :=
  String.ofList ('"' :: s.toList.flatMap quotedChar ++ ['"'])

end Text

namespace Number

def text : Number → String
  | .int n => toString n
  | .float x => Decimal.Layout.structured.write x

/-- The plain text of a number: all digits of a float without a fraction below `10 ^ 21`. -/
def plainText : Number → String
  | .int n => toString n
  | .float x =>
    match x.toInt? with
    | some n => if n.natAbs < pow10 21 then Decimal.fixed 0 x else Decimal.Layout.plain.write x
    | none => Decimal.Layout.plain.write x

end Number

namespace Value

mutual

def text : Value → String
  | .null => "null"
  | .bool b => if b then "true" else "false"
  | .number n => n.text
  | .string s => Text.quoted s
  | .array items => "[" ++ ",".intercalate (textAll items) ++ "]"
  | .object fields => "\x7b" ++ ",".intercalate (textFields fields) ++ "\x7d"

def textAll : List Value → List String
  | [] => []
  | v :: vs => text v :: textAll vs

def textFields : List (String × Value) → List String
  | [] => []
  | (k, v) :: rest => (Text.quoted k ++ ":" ++ text v) :: textFields rest

end

mutual

def plainText : Value → String
  | .null => "null"
  | .bool b => if b then "true" else "false"
  | .number n => n.plainText
  | .string s => s
  | .array items => ",".intercalate (partTexts items)
  | .object fields => text (.object fields)

/-- The plain texts of the parts of an array, of which a null has none. -/
def partTexts : List Value → List String
  | [] => []
  | .null :: vs => "" :: partTexts vs
  | v :: vs => plainText v :: partTexts vs

end

end Value

end SigilExpr
