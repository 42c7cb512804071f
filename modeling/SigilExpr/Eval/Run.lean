import SigilExpr.Node.Basic
import SigilExpr.Value.Method
import SigilExpr.Value.Operate
import SigilExpr.Value.Property

/-!
# Evaluation

Evaluating a compiled tree is a run: a tree of requests to the surroundings, each followed by what
depends on the reply. The requests are reads of a property of the context, reads of the whole
context, and calls of helpers. Operands run from the left, each at most once, and the first failure
ends the run.
-/

set_option autoImplicit false

namespace SigilExpr

inductive CallFailure where
  | missing
  | failed (cause : HelperError)

abbrev Reply := Except CallFailure Value

/-- A computation that asks its surroundings for reads and calls. -/
inductive Run (α : Type) where
  | done (result : Except RuntimeError α)
  | read (name : String) (next : Option Value → Run α)
  | readRoot (next : Value → Run α)
  | call (name : String) (args : List Value) (next : Reply → Run α)

namespace Run

variable {α β : Type}

/-- Goes on with the value of a run, unless the run fails. -/
def bind : Run α → (α → Run β) → Run β
  | .done (.ok a), f => f a
  | .done (.error e), _ => .done (.error e)
  | .read name next, f => .read name fun v => (next v).bind f
  | .readRoot next, f => .readRoot fun v => (next v).bind f
  | .call name args next, f => .call name args fun r => (next r).bind f

instance : Monad Run where
  pure a := .done (.ok a)
  bind := Run.bind

def ofReply (name : String) : Reply → Run Value
  | .ok v => .done (.ok v)
  | .error .missing => .done (.error (.missingHelper name))
  | .error (.failed cause) => .done (.error (.helper name cause))

def callHelper (name : String) (args : List Value) : Run Value :=
  .call name args (ofReply name)

end Run

namespace LogicalOp

def decides : LogicalOp → Value → Bool
  | .and, v => !v.isTruthy
  | .or, v => v.isTruthy

end LogicalOp

namespace Node

mutual

def run : Node → Run Value
  | .const v => .done (.ok v)
  | .contextRoot => .readRoot fun v => .done (.ok v)
  | .contextRead name => .read name fun v => .done (.ok (v.getD .null))
  | .helper name args => do
    let args ← runAll args
    Run.callHelper name args
  | .unary op operand => do
    let v ← run operand
    .done (v.applyUnary op)
  | .binary op left right => do
    let v ← run left
    let w ← run right
    .done (v.applyBinary op w)
  | .logical op left right => do
    let v ← run left
    if op.decides v then return v else run right
  | .conditional test consequent alternate => do
    let v ← run test
    if v.isTruthy then run consequent else run alternate
  | .member object name => do
    let v ← run object
    .done (v.property (.string name))
  | .index object key => do
    let v ← run object
    let k ← run key
    .done (v.property k)
  | .method object name args => do
    let v ← run object
    let args ← runAll args
    .done (v.call (.string name) args)
  | .methodAt object key args => do
    let v ← run object
    let k ← run key
    let args ← runAll args
    .done (v.call k args)
  | .callValue callee args => do
    let v ← run callee
    let _ ← runAll args
    .done (.error (.notCallable v.plainText))
  | .array items => do
    let vs ← runAll items
    return .array vs

def runAll : List Node → Run (List Value)
  | [] => return []
  | n :: ns => do
    let v ← run n
    let vs ← runAll ns
    return v :: vs

end

end Node

end SigilExpr
