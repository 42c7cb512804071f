import SigilExpr.Expr.Source
import SigilExpr.Value.Basic

/-!
# Options of an engine

Options are decoded from a value. An object gives them by name and an array in order; what is left
out has its usual setting, and anything else is refused.
-/

set_option autoImplicit false

namespace SigilExpr.Engine

structure Options where
  limits : Limits := {}
  keepsCompiled : Bool := true
deriving DecidableEq

namespace Options

/-- A size is an integer of at most 64 bits without a sign. -/
def size? : Value → Option Nat
  | .number (.int n) => if 0 ≤ n ∧ n < pow2 64 then some n.toNat else none
  | _ => none

def flag? : Value → Option Bool
  | .bool b => some b
  | _ => none

/-- Decodes a setting, which has its usual value where it is left out. -/
def setting {α : Type} (decode : Value → Option α) (usual : α) : Option Value → Option α
  | none => some usual
  | some v => decode v

def ofSettings (length depth keeps : Option Value) : Option Options := do
  let maxSourceLength ← setting size? 4096 length
  let maxDepth ← setting size? 64 depth
  let keepsCompiled ← setting flag? true keeps
  return { limits := { maxSourceLength, maxDepth }, keepsCompiled }

def ofValue? : Value → Option Options
  | .object fields =>
    ofSettings (NameMap.find? "max_source_len" fields) (NameMap.find? "max_depth" fields)
      (NameMap.find? "cache_compiled" fields)
  | .array items =>
    if items.length ≤ 3 then ofSettings items[0]? items[1]? items[2]? else none
  | _ => none

end Options

end SigilExpr.Engine
