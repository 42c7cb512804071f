import SigilExpr.Value.Text

/-!
# Errors of helpers

Why a helper could not be registered, and why a call of a helper gave no value.
-/

set_option autoImplicit false

namespace SigilExpr

inductive RegistryError where
  | invalidName (name : String)
  | unnamed
deriving DecidableEq

def RegistryError.message : RegistryError → String
  | .invalidName name => s!"invalid helper name '{name}'; helper names must look like '$name'"
  | .unnamed => "helper does not declare a name; register it with an explicit name"

inductive HelperError where
  | failed (message : String)
  | unregistered (name : String)
  | registration (cause : RegistryError)
  | missingArguments (name : String) (count : Nat)
  | notADate (value : Value)
  | unreadableDate (s : String)
  | invalidResult (name : String) (x : Binary64)

def HelperError.message : HelperError → String
  | .failed message => message
  | .unregistered name => s!"helper '{name}' is not registered"
  | .registration cause => cause.message
  | .missingArguments name count =>
    s!"{name} expects at least 2 arguments (start, end), got {count}"
  | .notADate value => s!"expected a date, got {value.text}"
  | .unreadableDate s => s!"cannot parse '{s}' as a date"
  | .invalidResult name x => s!"{name} produced invalid result {Decimal.Layout.plain.write x}"

end SigilExpr
