import SigilExpr.Value.Basic

/-!
# Contexts

A context answers an expression's reads: of one property by name, and of the whole context as one
value. Any value may serve as a context, and so may entries by name.
-/

set_option autoImplicit false

namespace SigilExpr

structure Context where
  get : String → Option Value
  root : Value

namespace Context

/-- The context that is a value; only an object has properties to read. -/
def ofValue (v : Value) : Context where
  get name := match v with
    | .object fields => NameMap.find? name fields
    | _ => none
  root := v

def ofEntries (entries : List (String × Value)) : Context where
  get name := NameMap.find? name entries
  root := .object entries

end Context

end SigilExpr
