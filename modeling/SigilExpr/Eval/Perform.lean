import SigilExpr.Context
import SigilExpr.Eval.Run
import SigilExpr.Helper.Registry

/-!
# Running in a world

A run is performed by answering its requests from a context and a registry. Every read of the
context is noted in the log; a call is noted by the helper that is called.
-/

set_option autoImplicit false

namespace SigilExpr

def World.call (name : String) (args : List Value) (w : World) : Reply × World :=
  match w.registry.find? name with
  | none => (.error .missing, w)
  | some h =>
    match (h.body args).perform World.invoke w with
    | (.ok v, w) => (.ok v, w)
    | (.error cause, w) => (.error (.failed cause), w)

def Run.perform {α : Type} (context : Context) :
    Run α → World → Except RuntimeError α × World
  | .done result, w => (result, w)
  | .read name next, w => (next (context.get name)).perform context (w.note (.read name))
  | .readRoot next, w => (next context.root).perform context (w.note .readRoot)
  | .call name args next, w =>
    let (reply, w) := w.call name args
    (next reply).perform context w

end SigilExpr
