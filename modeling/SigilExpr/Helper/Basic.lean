import SigilExpr.Helper.Error

/-!
# Helpers

A helper is a function that expressions call by name. What it does when it is called is a tree of
steps: it may leave events in the log, look at the registry that it was called on, register further
helpers there and call others through it, and in the end it gives a value or fails.
-/

set_option autoImplicit false

namespace SigilExpr

/-- What the log of a run holds: reads of the context and calls that helpers took note of. -/
inductive Event where
  | read (name : String)
  | readRoot
  | call (label : String) (args : List Value)

mutual

/-- A function for expressions to call, with the name that it declares for itself, if any. -/
inductive Helper where
  | mk (declaredName : Option String) (body : List Value → Action)

inductive Action where
  | finish (result : Except HelperError Value)
  | note (event : Event) (next : Action)
  | names (next : List String → Action)
  | register (name : String) (helper : Helper) (next : Except RegistryError PUnit → Action)
  | invoke (name : String) (args : List Value) (next : Except HelperError Value → Action)

end

namespace Helper

def declaredName : Helper → Option String
  | .mk name _ => name

def body : Helper → List Value → Action
  | .mk _ body => body

end Helper

end SigilExpr
