import SigilExpr.Binary64.Basic

/-!
# Rounding to double precision

One rounding serves all arithmetic: an exact quotient of naturals goes to the nearest
double-precision number, a tie to the one with the even mantissa, and a quotient beyond the
greatest number to infinity.
-/

set_option autoImplicit false

namespace SigilExpr

/-- The integer nearest to `n / d`, a tie going to the even one. -/
def nearestEven (n d : Nat) : Nat :=
  let q := n / d
  let r := n % d
  if 2 * r < d then q
  else if d < 2 * r then q + 1
  else q + q % 2

/-- The greatest `k` with `2 ^ k ≤ n / d`, for positive `n` and `d`. -/
def floorLog2 (n d : Nat) : Int :=
  let k : Int := (n.log2 : Int) - d.log2
  if n * pow2 (-k).toNat < d * pow2 k.toNat then k - 1 else k

namespace Binary64

/-- The number with `m` units of `2 ^ e`, where `m` may have just outgrown the mantissa. -/
def ofUnits (negative : Bool) (m : Nat) (e : Int) : Binary64 :=
  let (m, e) := if m = pow2 53 then (pow2 52, e + 1) else (m, e)
  if maxExponent < e then .infinite negative else .finite negative m e

/-- The number nearest to `n / d`, for positive `d`. -/
def round (negative : Bool) (n d : Nat) : Binary64 :=
  if n = 0 then signedZero negative
  else
    let e := max minExponent (floorLog2 n d - 52)
    ofUnits negative (nearestEven (n * pow2 (-e).toNat) (d * pow2 e.toNat)) e

def roundScaled (negative : Bool) (m : Nat) (e : Int) : Binary64 :=
  round negative (m * pow2 e.toNat) (pow2 (-e).toNat)

def ofInt (n : Int) : Binary64 :=
  round (n < 0) n.natAbs 1

def ofNat (n : Nat) : Binary64 :=
  round false n 1

end Binary64

end SigilExpr
