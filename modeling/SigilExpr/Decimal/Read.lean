import SigilExpr.Binary64.Round
import SigilExpr.Decimal.Digits

/-!
# Reading decimal numerals

A numeral is digits with at most one point among or beside them, then perhaps a power of ten, whose
exponent is read up to a size. It is read as the double-precision number nearest to its exact value.
A signed numeral may also be one of the names of infinity and of the value that is no number, in any
case.
-/

set_option autoImplicit false

namespace SigilExpr.Decimal

/--
The number nearest to `digits·10^exponent`. Exponents too far from zero to leave anything between
zero and infinity are decided without computing the power.
-/
def nearest (negative : Bool) (digits : Nat) (exponent : Int) : Binary64 :=
  if digits = 0 then .signedZero negative
  else if 0 ≤ exponent then
    if 400 < exponent then .infinite negative
    else .round negative (digits * pow10 exponent.toNat) 1
  else if digits.log2 + 1100 < 3 * exponent.natAbs then .signedZero negative
  else .round negative digits (pow10 exponent.natAbs)

/--
The size of the exponent that a row of digits spells. Once it has come to 65536 or more, the digits
that remain are passed over.
-/
def exponentSize (ds : List Char) : Nat :=
  ds.foldl (fun n c => if n < 65536 then 10 * n + digitValue c else n) 0

def exponent? (cs : List Char) : Option Int :=
  match cs with
  | '-' :: ds => size? ds |>.map fun n => -(n : Int)
  | '+' :: ds => size? ds |>.map Int.ofNat
  | ds => size? ds |>.map Int.ofNat
where
  size? (ds : List Char) : Option Nat :=
    if ds.isEmpty || !ds.all Char.isDigit then none else some (exponentSize ds)

/-- The parts of a numeral: its digits before and after the point and what follows them. -/
def split (cs : List Char) : List Char × List Char × List Char :=
  let whole := cs.takeWhile Char.isDigit
  match cs.dropWhile Char.isDigit with
  | '.' :: rest => (whole, rest.takeWhile Char.isDigit, rest.dropWhile Char.isDigit)
  | rest => (whole, [], rest)

def unsigned? (negative : Bool) (cs : List Char) : Option Binary64 :=
  let (whole, fraction, rest) := split cs
  if whole.isEmpty && fraction.isEmpty then none
  else
    let value (e : Int) := nearest negative (ofDigits (whole ++ fraction)) (e - fraction.length)
    match rest with
    | [] => some (value 0)
    | c :: ds => if c = 'e' || c = 'E' then (exponent? ds).map value else none

def named? (negative : Bool) (cs : List Char) : Option Binary64 :=
  let name := cs.map Char.toLower
  if name = "inf".toList || name = "infinity".toList then some (.infinite negative)
  else if name = "nan".toList then some .nan
  else none

/-- The number that a text spells, with an optional sign and no blanks. -/
def read? (cs : List Char) : Option Binary64 :=
  match cs with
  | '-' :: ds => magnitude? true ds
  | '+' :: ds => magnitude? false ds
  | ds => magnitude? false ds
where
  magnitude? (negative : Bool) (ds : List Char) : Option Binary64 :=
    (named? negative ds).or (unsigned? negative ds)

end SigilExpr.Decimal
