import SigilExpr.Binary64.Arith
import SigilExpr.Operator
import SigilExpr.Value.Equality

/-!
# Operators on values

Arithmetic converts its operands to numbers, computes in double precision and gives an integer where
the result is one. Bitwise operators work on words of 32 bits. Addition joins texts as soon as one
operand is a string.
-/

set_option autoImplicit false

namespace SigilExpr.Value

def toWord (v : Value) : Except RuntimeError (BitVec 32) := do
  return (← v.toNumber).toWord

def applyUnary (v : Value) (op : UnaryOp) : Except RuntimeError Value :=
  match op with
  | .neg => do ofResult (← v.toNumber).neg
  | .plus => do ofResult (← v.toNumber)
  | .not => .ok (.bool !v.isTruthy)
  | .bitNot => do ofResult (.ofInt (~~~(← v.toWord)).toInt)
  | .typeof | .void | .delete => .error (.type (.unsupported op.spelling))

/-- Whether two values are in an order that `accept` takes; strings compare by code points. -/
def ordered (accept : Ordering → Bool) (v w : Value) : Except RuntimeError Value :=
  match v, w with
  | .string s, .string t => .ok (.bool (accept (compare s t)))
  | _, _ => do
    let x ← v.toNumber
    let y ← w.toNumber
    return .bool ((x.compare? y).any accept)

def arithmetic (f : Binary64 → Binary64 → Binary64) (v w : Value) :
    Except RuntimeError Value := do
  let x ← v.toNumber
  let y ← w.toNumber
  ofResult (f x y)

/-- The result of a division, whose divisor is looked at first. -/
def divide (f : Binary64 → Binary64 → Binary64) (zero : ArithmeticFault) (v w : Value) :
    Except RuntimeError Value := do
  let y ← w.toNumber
  if y.isZero then throw (.arithmetic zero)
  let x ← v.toNumber
  ofResult (f x y)

def bitwise (f : BitVec 32 → BitVec 32 → Int) (v w : Value) : Except RuntimeError Value := do
  let a ← v.toWord
  let b ← w.toWord
  ofResult (.ofInt (f a b))

/-- The places that a word shifts by: its last five bits. -/
def shiftCount (b : BitVec 32) : Nat := b.toNat % 32

def applyBinary (v : Value) (op : BinaryOp) (w : Value) : Except RuntimeError Value :=
  match op with
  | .add =>
    if v.kind = .string ∨ w.kind = .string then .ok (.string (v.plainText ++ w.plainText))
    else arithmetic .add v w
  | .sub => arithmetic .sub v w
  | .mul => arithmetic .mul v w
  | .div => divide .div .divisionByZero v w
  | .mod => divide .rem .moduloByZero v w
  | .eq => .ok (.bool (v.looseEquals w))
  | .notEq => .ok (.bool !(v.looseEquals w))
  | .strictEq => .ok (.bool (v.strictEquals w))
  | .strictNotEq => .ok (.bool !(v.strictEquals w))
  | .lt => ordered Ordering.isLT v w
  | .lte => ordered Ordering.isLE v w
  | .gt => ordered Ordering.isGT v w
  | .gte => ordered Ordering.isGE v w
  | .shl => bitwise (fun a b => (a <<< shiftCount b).toInt) v w
  | .shr => bitwise (fun a b => (a.sshiftRight (shiftCount b)).toInt) v w
  | .ushr => bitwise (fun a b => (a >>> shiftCount b).toNat) v w
  | .bitAnd => bitwise (fun a b => (a &&& b).toInt) v w
  | .bitOr => bitwise (fun a b => (a ||| b).toInt) v w
  | .bitXor => bitwise (fun a b => (a ^^^ b).toInt) v w
  | .isIn | .instanceOf => .error (.type (.unsupported op.spelling))

end SigilExpr.Value
