import SigilExpr.Power

/-!
# Double-precision numbers

A double-precision number is a signed integer times a power of two, an infinity or the one value
that is no number. This module holds the type, its 64-bit form, and the tests on a single number;
rounding and arithmetic are separate modules. Everything is exact integer arithmetic.
-/

set_option autoImplicit false

namespace SigilExpr

/-- A double-precision number; `finite negative m e` is m·2^e, with its sign kept for zero too. -/
inductive Binary64 where
  | nan
  | infinite (negative : Bool)
  | finite (negative : Bool) (mantissa : Nat) (exponent : Int)
deriving DecidableEq, Inhabited

namespace Binary64

def minExponent : Int := -1074

def maxExponent : Int := 971

def signedZero (negative : Bool) : Binary64 := .finite negative 0 minExponent

/-- The number whose 64-bit form is `bits`: a sign bit, 11 exponent bits and 52 fraction bits. -/
def ofBits (bits : Nat) : Binary64 :=
  let negative := decide (bits / pow2 63 % 2 = 1)
  let exponent : Nat := bits / pow2 52 % pow2 11
  let fraction : Nat := bits % pow2 52
  if exponent = 2047 then
    if fraction = 0 then .infinite negative else .nan
  else if exponent = 0 then .finite negative fraction minExponent
  else .finite negative (pow2 52 + fraction) ((exponent : Int) - 1075)

def signBit (negative : Bool) : Nat := if negative then pow2 63 else 0

/-- The 64-bit form of a number; the value that is no number has the quiet form without a sign. -/
def toBits : Binary64 → Nat
  | .nan => 0x7ff8000000000000
  | .infinite negative => signBit negative + 0x7ff0000000000000
  | .finite negative m e => signBit negative + (e - minExponent).toNat * pow2 52 + m

/-- Whether a number has the mantissa and exponent that its 64-bit form gives. -/
def Canonical : Binary64 → Prop
  | .finite _ m e =>
    m < pow2 53 ∧ minExponent ≤ e ∧ e ≤ maxExponent ∧ (pow2 52 ≤ m ∨ e = minExponent)
  | _ => True

def isFinite : Binary64 → Bool
  | .finite _ _ _ => true
  | _ => false

def isZero : Binary64 → Bool
  | .finite _ m _ => m == 0
  | _ => false

/-- Whether the sign of a number is minus, also for zero. -/
def isNegative : Binary64 → Bool
  | .nan => false
  | .infinite negative => negative
  | .finite negative _ _ => negative

def neg : Binary64 → Binary64
  | .nan => .nan
  | .infinite negative => .infinite !negative
  | .finite negative m e => .finite (!negative) m e

def abs : Binary64 → Binary64
  | .nan => .nan
  | .infinite _ => .infinite false
  | .finite _ m e => .finite false m e

def signed (negative : Bool) (n : Nat) : Int :=
  if negative then -(n : Int) else n

def truncate? : Binary64 → Option Int
  | .finite negative m e => some (signed negative (m * pow2 e.toNat / pow2 (-e).toNat))
  | _ => none

def toInt? : Binary64 → Option Int
  | .finite negative m e =>
    if m * pow2 e.toNat % pow2 (-e).toNat = 0 then
      some (signed negative (m * pow2 e.toNat / pow2 (-e).toNat))
    else none
  | _ => none

/-- The mantissa of a finite number, signed and counted in units of `2 ^ exponent`. -/
def scaledTo (exponent : Int) (negative : Bool) (m : Nat) (e : Int) : Int :=
  signed negative (m * pow2 (e - exponent).toNat)

/-- How two numbers compare; no order relates a value that is no number to anything. -/
def compare? : Binary64 → Binary64 → Option Ordering
  | .nan, _ => none
  | _, .nan => none
  | .infinite a, .infinite b => some (compare b.toNat a.toNat)
  | .infinite a, .finite _ _ _ => some (if a then .lt else .gt)
  | .finite _ _ _, .infinite b => some (if b then .gt else .lt)
  | .finite a m e, .finite b n f =>
    let low := min e f
    some (compare (scaledTo low a m e) (scaledTo low b n f))

/-- Whether two numbers are numerically equal: zeros are, whatever their signs. -/
def equals (x y : Binary64) : Bool :=
  compare? x y == some .eq

end Binary64

end SigilExpr
