import SigilExpr.Binary64.Round

/-!
# Double-precision arithmetic

Each operation finds the exact result and rounds it once. A remainder has the sign of the dividend
and is always exact.
-/

set_option autoImplicit false

namespace SigilExpr.Binary64

/-- The sum of two numbers; an exact zero is negative only when both of them are. -/
def add : Binary64 → Binary64 → Binary64
  | .nan, _ => .nan
  | _, .nan => .nan
  | .infinite a, .infinite b => if a = b then .infinite a else .nan
  | .infinite a, .finite _ _ _ => .infinite a
  | .finite _ _ _, .infinite b => .infinite b
  | .finite a m e, .finite b n f =>
    let low := min e f
    let sum := scaledTo low a m e + scaledTo low b n f
    if sum = 0 then signedZero (a && b)
    else roundScaled (sum < 0) sum.natAbs low

def sub (x y : Binary64) : Binary64 := add x y.neg

def mul : Binary64 → Binary64 → Binary64
  | .nan, _ => .nan
  | _, .nan => .nan
  | .infinite a, .infinite b => .infinite (a != b)
  | .infinite a, .finite b n _ => if n = 0 then .nan else .infinite (a != b)
  | .finite a m _, .infinite b => if m = 0 then .nan else .infinite (a != b)
  | .finite a m e, .finite b n f => roundScaled (a != b) (m * n) (e + f)

def div : Binary64 → Binary64 → Binary64
  | .nan, _ => .nan
  | _, .nan => .nan
  | .infinite _, .infinite _ => .nan
  | .infinite a, .finite b _ _ => .infinite (a != b)
  | .finite a _ _, .infinite b => signedZero (a != b)
  | .finite a m e, .finite b n f =>
    if n = 0 then
      if m = 0 then .nan else .infinite (a != b)
    else round (a != b) (m * pow2 (e - f).toNat) (n * pow2 (f - e).toNat)

/-- The remainder of a division whose quotient is cut to an integer. -/
def rem : Binary64 → Binary64 → Binary64
  | .nan, _ => .nan
  | _, .nan => .nan
  | .infinite _, _ => .nan
  | .finite a m e, .infinite _ => .finite a m e
  | .finite a m e, .finite _ n f =>
    if n = 0 then .nan
    else
      let low := min e f
      roundScaled a (m * pow2 (e - low).toNat % (n * pow2 (f - low).toNat)) low

def trunc : Binary64 → Binary64
  | .finite negative m e =>
    if 0 ≤ e then .finite negative m e else round negative (m / pow2 (-e).toNat) 1
  | x => x

def remEuclid (x y : Binary64) : Binary64 :=
  let r := rem x y
  if r.compare? (signedZero false) = some .lt then add r y.abs else r

/-- The word of the integer part, and of the nearest end where that is out of the range of words. -/
def toUnsigned : Binary64 → BitVec 32
  | .nan => 0
  | .infinite negative => if negative then 0 else BitVec.allOnes 32
  | .finite negative m e =>
    let n := signed negative (m * pow2 e.toNat / pow2 (-e).toNat)
    BitVec.ofNat 32 (min n.toNat (pow2 32 - 1))

/-- The word of the integer part modulo `2 ^ 32`, zero for what is not finite. -/
def toWord (x : Binary64) : BitVec 32 :=
  if x.isFinite then (x.trunc.remEuclid (ofNat (pow2 32))).toUnsigned else 0

end SigilExpr.Binary64
