import SigilExpr.Text.Case
import SigilExpr.Text.Search
import SigilExpr.Value.Equality

/-!
# Methods of values

The calls that numbers, strings and arrays answer. Places count characters or parts from zero, and a
negative one counts from the end.
-/

set_option autoImplicit false

namespace SigilExpr.Value

/-- The place in a row of `length` parts that a number names, counted from the end if negative. -/
def clampPlace (length : Nat) (x : Binary64) : Nat :=
  match x.truncate? with
  | some k => if k < 0 then (length + k).toNat else min k.toNat length
  | none => if x = .infinite true then 0 else length

/-- The place that an argument names, which is `missing` where there is none. -/
def placeArgument (length missing : Nat) : Option Value → Except RuntimeError Nat
  | none | some .null => .ok missing
  | some v => do return clampPlace length (← v.toNumber)

def sliceOf {α : Type} (xs : List α) (args : List Value) : Except RuntimeError (List α) := do
  let start ← placeArgument xs.length 0 args[0]?
  let stop ← placeArgument xs.length xs.length args[1]?
  return (xs.take stop).drop start

/-- The place of what was looked for, or minus one. -/
def placeValue : Option Nat → Except RuntimeError Value
  | some i => ofCount i
  | none => .ok (.int (-1))

def toFixed (n : Number) (args : List Value) : Except RuntimeError Value := do
  let places ← (args.headD .null).toNumber
  match places.truncate? with
  | some k =>
    let tooFew := places.isNegative && !places.isZero
    let tooMany := places.compare? (.ofNat 100) == some .gt
    if tooFew || tooMany then throw (.type (.fixedPlaces places))
    return .string (Decimal.fixed k.toNat n.toBinary64)
  | none => throw (.type (.fixedPlaces places))

def callString (s : String) (name : String) (args : List Value) : Except RuntimeError Value :=
  let cs := s.toList
  let needle := ((args.head?.map plainText).getD "").toList
  match name with
  | "toUpperCase" => .ok (.string (String.ofList (Text.upper cs)))
  | "toLowerCase" => .ok (.string (String.ofList (Text.lower cs)))
  | "trim" => .ok (.string (String.ofList (Text.trim cs)))
  | "includes" => .ok (.bool (Text.search? needle cs).isSome)
  | "startsWith" => .ok (.bool (needle.isPrefixOf cs))
  | "endsWith" => .ok (.bool (needle.isSuffixOf cs))
  | "indexOf" => placeValue (Text.search? needle cs)
  | "slice" => do return .string (String.ofList (← sliceOf cs args))
  | _ => .error (.notCallable s!"string.{name}")

def callArray (items : List Value) (name : String) (args : List Value) :
    Except RuntimeError Value :=
  let needle := args.headD .null
  match name with
  | "includes" => .ok (.bool (items.any (strictEquals · needle)))
  | "indexOf" => placeValue (items.findIdx? (strictEquals · needle))
  | "join" =>
    let separator := match needle with
      | .null => ","
      | v => v.plainText
    .ok (.string (separator.intercalate (partTexts items)))
  | "slice" => do return .array (← sliceOf items args)
  | _ => .error (.notCallable s!"array.{name}")

def call (receiver method : Value) (args : List Value) : Except RuntimeError Value :=
  let name := method.plainText
  match receiver with
  | .null => .error (.notAnObject name .null)
  | .number n =>
    if name = "toFixed" then toFixed n args
    else if name = "toString" then .ok (.string receiver.plainText)
    else .error (.notCallable s!"number.{name}")
  | .string s => if name = "toString" then .ok (.string s) else callString s name args
  | .array items =>
    if name = "toString" then .ok (.string receiver.plainText) else callArray items name args
  | .bool _ | .object _ =>
    if name = "toString" then .ok (.string receiver.plainText)
    else .error (.notCallable s!"{receiver.kind.name}.{name}")

end SigilExpr.Value
