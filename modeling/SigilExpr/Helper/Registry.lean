import SigilExpr.Date.Difference
import SigilExpr.Expr.Reference
import SigilExpr.Helper.Basic
import SigilExpr.NameMap

/-!
# Registries

A registry holds helpers under names that look like `$name`. A helper may be replaced but never
removed. A call through a registry hands the registry to the helper, which may extend it.
-/

set_option autoImplicit false

namespace SigilExpr

structure Registry where
  entries : List (String × Helper)

namespace Registry

def empty : Registry := ⟨[]⟩

def find? (r : Registry) (name : String) : Option Helper := NameMap.find? name r.entries

def contains (r : Registry) (name : String) : Bool := (r.find? name).isSome

def names (r : Registry) : List String := NameMap.names r.entries

def size (r : Registry) : Nat := r.entries.length

def text (r : Registry) : String :=
  "HelperRegistry \x7b helpers: [" ++ ", ".intercalate (r.names.map Text.quoted) ++ "] \x7d"

def register (r : Registry) (name : String) (h : Helper) : Except RegistryError Registry :=
  if isSigilName name then .ok ⟨NameMap.insert name h r.entries⟩
  else .error (.invalidName name)

/-- The registry with a helper under the name that it declares. -/
def add (r : Registry) (h : Helper) : Except RegistryError Registry :=
  match h.declaredName with
  | some name => r.register name h
  | none => .error .unnamed

def dateHelper (p : Date.Period) : Helper :=
  .mk (some p.helperName) fun args => .finish (p.call args)

def standard : Registry :=
  ⟨NameMap.ofList (Date.Period.all.map fun p => (p.helperName, dateHelper p))⟩

end Registry

/-- The room for calls of helpers inside each other: how many may be nested, and what a call comes
to that would be nested deeper. A run cannot ask how much there is. -/
class CallStack where
  depth : Nat
  overflow : HelperError

/-- The room of a run that is given no other. -/
instance CallStack.usual : CallStack := ⟨4096, .failed "helper calls are nested too deeply"⟩

/-- What a run works on: a registry, the log, the latest event last, and the room for its calls. -/
structure World where
  registry : Registry
  log : List Event
  [stack : CallStack]

namespace World

def note (w : World) (e : Event) : World := { w with log := w.log ++ [e] }

end World

/-- Does what a helper does, where `call` makes its calls of other helpers. -/
def Action.perform (call : String → List Value → World → Except HelperError Value × World) :
    Action → World → Except HelperError Value × World
  | .finish result, w => (result, w)
  | .note event next, w => next.perform call (w.note event)
  | .names next, w => (next w.registry.names).perform call w
  | .register name helper next, w =>
    match w.registry.register name helper with
    | .ok registry => (next (.ok ())).perform call { w with registry }
    | .error e => (next (.error e)).perform call w
  | .invoke name args next, w =>
    let (result, w) := call name args w
    (next result).perform call w

namespace World

/-- Calls the helper of a name, which may have `depth` further calls nested in it. -/
def invokeWithin : Nat → String → List Value → World → Except HelperError Value × World
  | 0, _, _, w => (.error w.stack.overflow, w)
  | depth + 1, name, args, w =>
    match w.registry.find? name with
    | none => (.error (.unregistered name), w)
    | some h => (h.body args).perform (invokeWithin depth) w

def invoke (name : String) (args : List Value) (w : World) : Except HelperError Value × World :=
  invokeWithin w.stack.depth name args w

end World

end SigilExpr
