import SigilExpr.Eval.Perform
import SigilExpr.Expr.Restriction
import SigilExpr.Expr.Source
import SigilExpr.Node.OfExpr
import SigilExpr.Node.Text

/-!
# Compiled expressions

To compile a source is to read it, to refuse what is not allowed in it, to look up the helpers that
it names and to make its tree, in this order; the first fault is the result. What was compiled runs
any number of times.
-/

set_option autoImplicit false

namespace SigilExpr

/-- An expression that is ready to run, with its source and the set of helpers that it uses. -/
structure Compiled where
  source : String
  root : Node
  helpers : List String
deriving Inhabited

structure CompileError where
  source : String
  fault : Fault

def CompileError.message (e : CompileError) : String :=
  s!"failed to compile expression `{e.source}`: {e.fault.message e.source.toList}"

structure EvaluationError where
  cause : RuntimeError
  source : String
  transformed : String

def EvaluationError.message (e : EvaluationError) : String :=
  s!"error while evaluating `{e.source}`: {e.cause.message}"

namespace Compiled

def transformed (c : Compiled) : String := c.root.text

def same (c d : Compiled) : Bool :=
  c.source == d.source && c.root.same d.root && c.helpers == d.helpers

def parts (registry : Registry) (limits : Limits) (source : List Char) :
    Except Fault (Node × List String) := do
  let e ← SourceExpr.ofSource limits source
  e.checkAllowed
  let helpers ← e.helpersIn registry.contains
  let root ← e.toNode
  return (root, helpers)

def ofSource (registry : Registry) (limits : Limits) (source : String) :
    Except CompileError Compiled :=
  match parts registry limits source.toList with
  | .ok (root, helpers) => .ok ⟨source, root, helpers⟩
  | .error fault => .error ⟨source, fault⟩

def run (c : Compiled) (context : Context) (w : World) :
    Except EvaluationError Value × World :=
  match c.root.run.perform context w with
  | (.ok v, w) => (.ok v, w)
  | (.error cause, w) => (.error ⟨cause, c.source, c.transformed⟩, w)

end Compiled

end SigilExpr
