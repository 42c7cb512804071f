import SigilExpr.Expr.Basic
import SigilExpr.Fault
import SigilExpr.Text.Names

/-!
# What names refer to

A name in an expression is a helper, the whole context, or a property of the context. Every helper
that an expression names has to be registered; the first one that is not is a fault.
-/

set_option autoImplicit false

namespace SigilExpr

/-- Whether a helper may have the name: a dollar sign, a letter, then letters, digits and `_`. -/
def isSigilName (name : String) : Bool :=
  match name.toList with
  | '$' :: c :: cs => c.isAlpha && cs.all fun d => d.isAlphanum || d == '_'
  | _ => false

inductive Reference where
  | helper
  | contextRoot
  | context
deriving DecidableEq

/-- What the name refers to: the whole context has two names of its own. -/
def Reference.ofName (name : String) : Reference :=
  if name = "$" ∨ name = "this" then .contextRoot
  else if isSigilName name then .helper
  else .context

namespace SourceExpr

/-- The helpers that an expression names, each with its place, in the order of its nodes. -/
def helperUses (e : SourceExpr) : List (String × Nat) :=
  e.nodes.filterMap fun
    | .ident mark name =>
      if Reference.ofName name = .helper then some (name, mark.span.start) else none
    | _ => none

/-- The set of helpers that an expression uses, if all of them are registered. -/
def helpersIn (isRegistered : String → Bool) (e : SourceExpr) : Except Fault (List String) :=
  match (helperUses e).find? fun use => !isRegistered use.1 with
  | some (name, offset) => .error (.unresolved name offset)
  | none => .ok (Text.nameSet ((helperUses e).map Prod.fst))

end SourceExpr

end SigilExpr
