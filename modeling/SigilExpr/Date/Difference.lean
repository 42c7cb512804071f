import SigilExpr.Binary64.Arith
import SigilExpr.Date.Read
import SigilExpr.Helper.Error

/-!
# Differences of dates

A value is a date if it is a number of milliseconds from the beginning of 1970 or a string that
spells a date. The difference of two dates is counted in a unit of fixed length.
-/

set_option autoImplicit false

namespace SigilExpr.Date

def milliseconds : Value → Except HelperError Binary64
  | .number n => .ok n.toBinary64
  | .string s =>
    match read? s.toList with
    | some n => .ok (.ofInt n)
    | none => .error (.unreadableDate s)
  | v => .error (.notADate v)

inductive Period where
  | days
  | weeks
  | months
  | years
deriving DecidableEq

namespace Period

def all : List Period := [.days, .weeks, .months, .years]

def helperName : Period → String
  | .days => "$days"
  | .weeks => "$weeks"
  | .months => "$months"
  | .years => "$years"

def dayCount : Period → Nat
  | .days => 1
  | .weeks => 7
  | .months => 30
  | .years => 365

def length (p : Period) : Binary64 := .ofNat (p.dayCount * 86400000)

def difference (p : Period) (start stop : Value) : Except HelperError Binary64 := do
  let stop ← milliseconds stop
  let start ← milliseconds start
  return (stop.sub start).div p.length

/-- What the helper that counts a period makes of its arguments; more than two do not count. -/
def call (p : Period) (args : List Value) : Except HelperError Value :=
  match args with
  | start :: stop :: _ => do
    let x ← p.difference start stop
    match Number.ofBinary64? x with
    | some n => return .number n
    | none => throw (.invalidResult p.helperName x)
  | _ => .error (.missingArguments p.helperName args.length)

end Period

end SigilExpr.Date
