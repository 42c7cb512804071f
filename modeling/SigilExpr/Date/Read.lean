import SigilExpr.Date.Calendar
import SigilExpr.Decimal.Read
import SigilExpr.Text.Blank

/-!
# Reading dates

A date is written strictly, with a time and its distance from the zero meridian, or loosely: as a
date with a time after `T` or after blanks, or as a date alone. The loose forms are taken at the
zero meridian. Their numbers may have blanks before them and fewer digits, and a signed year has any
number of digits.
-/

set_option autoImplicit false

namespace SigilExpr.Date

/-- A reader of a first part of a text: what it read and the rest. -/
abbrev Reader (α : Type) := List Char → Option (α × List Char)

/-- Reads between `least` and `most` digits, as many as there are. -/
def digits (least most : Nat) : Reader Nat := fun cs =>
  let ds := (cs.take most).takeWhile Char.isDigit
  if ds.length < least then none else some (Decimal.ofDigits ds, cs.drop ds.length)

def exactly (c : Char) : Reader Unit
  | d :: cs => if c = d then some ((), cs) else none
  | [] => none

/-- Reads the fraction of a second as milliseconds; digits after the third do not count. -/
def fraction : Reader Nat := fun cs =>
  let ds := cs.takeWhile Char.isDigit
  if ds.isEmpty then none
  else some (Decimal.ofDigits ((ds ++ ['0', '0']).take 3), cs.drop ds.length)

def optionalFraction : Reader Nat
  | '.' :: cs => fraction cs
  | cs => some (0, cs)

/-- Reads the seconds that a time is ahead of the zero meridian. -/
def meridianOffset : Reader Int
  | 'Z' :: cs | 'z' :: cs => some (0, cs)
  | '+' :: cs => distance 1 cs
  | '-' :: cs | '\u2212' :: cs => distance (-1) cs
  | _ => none
where
  distance (sign : Int) : Reader Int := fun cs => do
    let (hours, cs) ← digits 2 2 cs
    let ((), cs) ← exactly ':' cs
    let (minutes, cs) ← digits 2 2 cs
    if hours ≤ 23 ∧ minutes ≤ 59 then some (sign * (hours * 3600 + minutes * 60 : Nat), cs)
    else none

def strict : Reader Stamp := fun cs => do
  let (year, cs) ← digits 4 4 cs
  let ((), cs) ← exactly '-' cs
  let (month, cs) ← digits 2 2 cs
  let ((), cs) ← exactly '-' cs
  let (day, cs) ← digits 2 2 cs
  let ((), cs) ← ((exactly 'T' cs).or (exactly 't' cs)).or (exactly ' ' cs)
  let (hour, cs) ← digits 2 2 cs
  let ((), cs) ← exactly ':' cs
  let (minute, cs) ← digits 2 2 cs
  let ((), cs) ← exactly ':' cs
  let (second, cs) ← digits 2 2 cs
  let (milliseconds, cs) ← optionalFraction cs
  let (offset, cs) ← meridianOffset cs
  return ({ year, month, day, hour, minute, second, milliseconds, offset }, cs)

/-- Reads a number of at most `most` digits, perhaps after blanks. -/
def loose (most : Nat) : Reader Nat := fun cs => digits 1 most (Text.trimStart cs)

/-- Reads a year, perhaps after blanks; after a sign it may have any number of digits. -/
def looseYear : Reader Int := fun cs =>
  let signed (sign : Int) (ds : List Char) : Option (Int × List Char) :=
    (digits 1 ds.length ds).map fun (n, rest) => (sign * n, rest)
  match Text.trimStart cs with
  | '-' :: ds => signed (-1) ds
  | '+' :: ds => signed 1 ds
  | ds => (digits 1 4 ds).map fun (n, rest) => ((n : Int), rest)

def looseDate : Reader Stamp := fun cs => do
  let (year, cs) ← looseYear cs
  let ((), cs) ← exactly '-' cs
  let (month, cs) ← loose 2 cs
  let ((), cs) ← exactly '-' cs
  let (day, cs) ← loose 2 cs
  return ({ year, month, day }, cs)

def looseTime (date : Stamp) : Reader Stamp := fun cs => do
  let (hour, cs) ← loose 2 cs
  let ((), cs) ← exactly ':' cs
  let (minute, cs) ← loose 2 cs
  let ((), cs) ← exactly ':' cs
  let (second, cs) ← loose 2 cs
  return ({ date with hour, minute, second }, cs)

def looseWithT : Reader Stamp := fun cs => do
  let (date, cs) ← looseDate cs
  let ((), cs) ← exactly 'T' cs
  let (stamp, cs) ← looseTime date cs
  let (milliseconds, cs) ← optionalFraction cs
  return ({ stamp with milliseconds }, cs)

def looseWithBlanks : Reader Stamp := fun cs => do
  let (date, cs) ← looseDate cs
  looseTime date (Text.trimStart cs)

def whole (reader : Reader Stamp) (cs : List Char) : Option Stamp :=
  match reader cs with
  | some (stamp, []) => if stamp.isValid then some stamp else none
  | _ => none

/-- The milliseconds from the beginning of 1970 to the date that a text spells. -/
def read? (cs : List Char) : Option Int :=
  let cs := Text.trim cs
  let forms := [strict, looseWithT, looseWithBlanks, looseDate]
  (forms.findSome? (whole · cs)).map Stamp.epochMilliseconds

end SigilExpr.Date
