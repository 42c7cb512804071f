import SigilExpr.Binary64.Round

/-!
# Shortest decimal digits

The shortest digits of a number are the fewest that read back as that number; among the numerals
with so few digits it is the one nearest to the number. Where two are equally near, the caller
chooses which one.
-/

set_option autoImplicit false

namespace SigilExpr.Decimal

inductive Tie where
  | toEven
  | up
deriving DecidableEq

/-- The reals that read back as one number, as naturals over one common denominator. -/
structure Interval where
  low : Nat
  value : Nat
  high : Nat
  denominator : Nat
  closed : Bool

/-- The reals nearer to `m·2^e` than to its neighbours; the ends belong to it when `m` is even. -/
def Interval.around (m : Nat) (e : Int) : Interval :=
  let unit := pow2 (e - 2).toNat
  let below := if m = pow2 52 && Binary64.minExponent < e then 1 else 2
  ⟨(4 * m - below) * unit, 4 * m * unit, (4 * m + 2) * unit, pow2 (2 - e).toNat, m % 2 = 0⟩

def Interval.contains (i : Interval) (n d : Nat) : Bool :=
  let x := n * i.denominator
  if i.closed then i.low * d ≤ x && x ≤ i.high * d else i.low * d < x && x < i.high * d

/-- The multiple of `10 ^ p` in the interval that is nearest to its value, counted in `10 ^ p`. -/
def Interval.onGrid? (tie : Tie) (i : Interval) (p : Int) : Option Nat :=
  let step := pow10 p.toNat
  let parts := pow10 (-p).toNat
  let below := i.value * parts / (i.denominator * step)
  let gap := i.value * parts % (i.denominator * step)
  let hit (n : Nat) := i.contains (n * step) parts
  match hit below, hit (below + 1) with
  | false, false => none
  | true, false => some below
  | false, true => some (below + 1)
  | true, true =>
    let rest := i.denominator * step - gap
    if gap < rest || gap = rest && tie = .toEven && below % 2 = 0 then some below
    else some (below + 1)

/-- The digits of a positive number and the power of ten that the last of them counts. -/
def shortest (tie : Tie) (m : Nat) (e : Int) : Nat × Int :=
  let i := Interval.around m e
  let top := (floorLog2 i.value i.denominator * 30103).fdiv 100000 + 1
  let found := (List.range 20).findSome? fun (k : Nat) =>
    (i.onGrid? tie (top - k)).map fun n => (n, top - k)
  found.getD (0, 0)

/-- The digits of a numeral without the zeros at its end, and the place of its point. -/
def significant (n : Nat) (p : Int) : List Char × Int :=
  let ds := Nat.toDigits 10 n
  ((ds.reverse.dropWhile (· == '0')).reverse, ds.length + p)

end SigilExpr.Decimal
