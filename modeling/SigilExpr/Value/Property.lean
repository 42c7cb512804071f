import SigilExpr.Value.Convert

/-!
# Properties of values

An object has its fields; an array and a string have a length and parts at places that count from
zero, a string's in characters. What is not there reads as null.
-/

set_option autoImplicit false

namespace SigilExpr.Value

/-- The natural that a text spells in decimal digits, perhaps after a plus sign. -/
def natural? (cs : List Char) : Option Nat :=
  match cs with
  | '+' :: ds => digits? ds
  | ds => digits? ds
where
  digits? (ds : List Char) : Option Nat :=
    if ds.isEmpty || !ds.all Char.isDigit then none else some (Decimal.ofDigits ds)

/-- The place that a key names; a number names one only if it is an integer. -/
def place? : Value → Option Nat
  | .number (.int n) => if 0 ≤ n then some n.toNat else none
  | .number (.float _) => none
  | key => natural? key.plainText.toList

def property (object key : Value) : Except RuntimeError Value :=
  let name := key.plainText
  match object with
  | .object fields => .ok ((NameMap.find? name fields).getD .null)
  | .array items =>
    if name = "length" then ofCount items.length
    else .ok (((place? key).bind fun i => items[i]?).getD .null)
  | .string s =>
    if name = "length" then ofCount s.toList.length
    else
      let character := (place? key).bind fun i => s.toList[i]?
      .ok ((character.map fun c => .string (String.singleton c)).getD .null)
  | .null | .bool _ | .number _ => .error (.notAnObject name object.kind)

end SigilExpr.Value
