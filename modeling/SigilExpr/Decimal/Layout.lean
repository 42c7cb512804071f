import SigilExpr.Decimal.Shortest

/-!
# Writing numbers

A number is written either with its shortest digits, under a layout that says where the point goes
and when a power of ten is written, or with a fixed count of places. The layouts in use are values
of one record.
-/

set_option autoImplicit false

namespace SigilExpr.Decimal

structure Layout where
  /-- The exponents of the first digit that are written without a power of ten. -/
  positional : Int → Bool
  /-- What follows the digits of a number without a fraction. -/
  wholeEnd : String
  /-- Which of two equally near numerals is written. -/
  tie : Tie

/-- The layout of structured text: always a point or a power of ten, positional for first digits
between the fifth place after the point and the sixteenth before it. -/
def Layout.structured : Layout :=
  ⟨fun x => -5 ≤ x && x ≤ 15, ".0", .toEven⟩

/-- The layout of plain text: positional always, and no point without a fraction. -/
def Layout.plain : Layout :=
  ⟨fun _ => true, "", .up⟩

def zeros (n : Nat) : List Char := List.replicate n '0'

/-- Digits with a point before the one at index `point`, filled with zeros. -/
def Layout.place (l : Layout) (digits : List Char) (point : Int) : List Char :=
  if point ≤ 0 then '0' :: '.' :: zeros point.natAbs ++ digits
  else if digits.length ≤ point.toNat then
    digits ++ zeros (point.toNat - digits.length) ++ l.wholeEnd.toList
  else digits.take point.toNat ++ '.' :: digits.drop point.toNat

def Layout.withPower (digits : List Char) (exponent : Int) : List Char :=
  let mantissa := match digits with
    | d :: e :: ds => d :: '.' :: e :: ds
    | ds => ds
  let power := Nat.toDigits 10 exponent.natAbs
  mantissa ++ 'e' :: (if exponent < 0 then '-' else '+') :: power

def Layout.write (l : Layout) : Binary64 → String
  | .nan => "NaN"
  | .infinite negative => if negative then "-inf" else "inf"
  | .finite negative m e =>
    let magnitude :=
      if m = 0 then '0' :: l.wholeEnd.toList
      else
        let (n, p) := shortest l.tie m e
        let (digits, point) := significant n p
        if l.positional (point - 1) then l.place digits point
        else Layout.withPower digits (point - 1)
    String.ofList (if negative then '-' :: magnitude else magnitude)

/-- The text of a number with `places` digits after the point, a tie going to the even digit. -/
def fixed (places : Nat) : Binary64 → String
  | .nan => "NaN"
  | .infinite negative => if negative then "-inf" else "inf"
  | .finite negative m e =>
    let n := nearestEven (m * pow2 e.toNat * pow10 places) (pow2 (-e).toNat)
    let ds := Nat.toDigits 10 n
    let ds := zeros (places + 1 - ds.length) ++ ds
    let whole := ds.take (ds.length - places)
    let magnitude :=
      if places = 0 then whole else whole ++ '.' :: ds.drop (ds.length - places)
    String.ofList (if negative then '-' :: magnitude else magnitude)

example : Layout.structured.write (.ofNat 1) = "1.0" := by decide +kernel

example : Layout.structured.write (.ofBits 0x3eb0c6f7a0b5ed8d) = "1e-6" := by decide +kernel

example : Layout.plain.write (.ofBits 0x3eb0c6f7a0b5ed8d) = "0.000001" := by decide +kernel

example : Layout.plain.write (.ofBits 0xc1e0000000200000) = "-2147483649" := by decide +kernel

example : fixed 1 (.ofBits 0x3fd0000000000000) = "0.2" := by decide +kernel

example : fixed 0 (.signedZero true) = "-0" := by decide +kernel

end SigilExpr.Decimal
