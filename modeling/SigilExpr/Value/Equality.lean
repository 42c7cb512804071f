import SigilExpr.Value.Convert

/-!
# Equality of values

Strict equality compares numbers numerically and all else part by part. Loose equality also compares
primitive values of different kinds, as the numbers that they stand for.
-/

set_option autoImplicit false

namespace SigilExpr.Value

/-- Strict equality: the same kind and the same value, where two numbers count numerically. -/
def strictEquals : Value → Value → Bool
  | .number m, .number n => m.toBinary64.equals n.toBinary64
  | v, w => v.same w

def isPrimitive : Value → Bool
  | .array _ => false
  | .object _ => false
  | _ => true

def numbersEqual (v w : Value) : Bool :=
  match v.toNumber, w.toNumber with
  | .ok x, .ok y => x.equals y
  | _, _ => false

/-- Whether loose equality compares values of two kinds as numbers. -/
def comparesAsNumbers : Kind → Kind → Bool
  | .number, .string => true
  | .string, .number => true
  | .boolean, _ => true
  | _, .boolean => true
  | _, _ => false

/-- Loose equality: null equals null alone, and different primitives compare as numbers. -/
def looseEquals (v w : Value) : Bool :=
  if v.kind = .null || w.kind = .null then v.kind = w.kind
  else if comparesAsNumbers v.kind w.kind && v.isPrimitive && w.isPrimitive then numbersEqual v w
  else v.strictEquals w

end SigilExpr.Value
