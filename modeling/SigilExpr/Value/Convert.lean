import SigilExpr.Decimal.Read
import SigilExpr.RuntimeError
import SigilExpr.Text.Blank

/-!
# Conversions of values

Which values count as true, which number a value stands for, and which value an arithmetic result
is.
-/

set_option autoImplicit false

namespace SigilExpr

def Value.isTruthy : Value → Bool
  | .null => false
  | .bool b => b
  | .number n => !n.toBinary64.isZero
  | .string s => !s.isEmpty
  | .array _ => true
  | .object _ => true

/-- The number that a value stands for; a blank string stands for zero. -/
def Value.toNumber : Value → Except RuntimeError Binary64
  | .null => .ok (.signedZero false)
  | .bool b => .ok (.ofNat b.toNat)
  | .number n => .ok n.toBinary64
  | .string s =>
    match Text.trim s.toList with
    | [] => .ok (.signedZero false)
    | cs =>
      match Decimal.read? cs with
      | some x => .ok x
      | none => .error (.type (.notNumeric s))
  | .array _ => .error (.type (.notPrimitive .array))
  | .object _ => .error (.type (.notPrimitive .object))

/-- An arithmetic result as a value, which it is unless it is infinite or no number. -/
def Value.ofResult (x : Binary64) : Except RuntimeError Value :=
  match Number.ofBinary64? x with
  | some n => .ok (.number n)
  | none => .error (.arithmetic (.invalidResult x))

/-- A count as a value; like an arithmetic result, it is in double precision first. -/
def Value.ofCount (n : Nat) : Except RuntimeError Value := ofResult (.ofNat n)

end SigilExpr
