import SigilExpr.Binary64.Round
import SigilExpr.NameMap

/-!
# Values

A value is what a context holds, a helper takes and returns, and an expression comes to: null, a
boolean, a number, a string, an array or an object. A number is an integer or a double-precision
number, and the two are told apart even where they are numerically equal. The fields of an object
are kept in the order of their names, no name twice.
-/

set_option autoImplicit false

namespace SigilExpr

inductive Number where
  | int (n : Int)
  | float (x : Binary64)
deriving DecidableEq, Inhabited

namespace Number

def toBinary64 : Number → Binary64
  | .int n => .ofInt n
  | .float x => x

/-- The number for an arithmetic result: an integer if one of 63 bits and a sign is equal to it. -/
def ofBinary64? (x : Binary64) : Option Number :=
  match x.toInt? with
  | some n => if -(pow2 63 : Int) ≤ n ∧ n < pow2 63 then some (.int n) else some (.float x)
  | none => if x.isFinite then some (.float x) else none

/-- Whether two numbers are of one form and equal. -/
def same : Number → Number → Bool
  | .int m, .int n => m == n
  | .float x, .float y => x.equals y
  | _, _ => false

end Number

inductive Value where
  | null
  | bool (b : Bool)
  | number (n : Number)
  | string (s : String)
  | array (items : List Value)
  | object (fields : List (String × Value))
deriving Inhabited

namespace Value

def int (n : Int) : Value := .number (.int n)

inductive Kind where
  | null
  | boolean
  | number
  | string
  | array
  | object
deriving DecidableEq

def Kind.name : Kind → String
  | .null => "null"
  | .boolean => "boolean"
  | .number => "number"
  | .string => "string"
  | .array => "array"
  | .object => "object"

def kind : Value → Kind
  | .null => .null
  | .bool _ => .boolean
  | .number _ => .number
  | .string _ => .string
  | .array _ => .array
  | .object _ => .object

mutual

/-- Whether two values are equal part by part, each number in the same form. -/
def same : Value → Value → Bool
  | .null, .null => true
  | .bool a, .bool b => a == b
  | .number m, .number n => m.same n
  | .string s, .string t => s == t
  | .array xs, .array ys => sameAll xs ys
  | .object xs, .object ys => sameFields xs ys
  | _, _ => false

def sameAll : List Value → List Value → Bool
  | [], [] => true
  | x :: xs, y :: ys => same x y && sameAll xs ys
  | _, _ => false

def sameFields : List (String × Value) → List (String × Value) → Bool
  | [], [] => true
  | (k, x) :: xs, (l, y) :: ys => k == l && same x y && sameFields xs ys
  | _, _ => false

end

/-- The object with the given fields; of two with one name the later counts. -/
def ofFields (fields : List (String × Value)) : Value :=
  .object (NameMap.ofList fields)

end Value

end SigilExpr
