import SigilExpr.Expr.Basic
import SigilExpr.Fault

/-!
# Forms that are not allowed

Some forms are read so that they can be refused by name: the reserved name, the word `super`, and
the operators that are spelled as words. The fault is the first such node, where a node comes before
the nodes below it.
-/

set_option autoImplicit false

namespace SigilExpr

namespace Expr

variable {Note : Type}

/-- The name kept for the helpers of a running expression. -/
def reservedName : String := "_"

def restriction? : Expr Note → Option Restriction
  | .ident _ name =>
    if name = reservedName then some .reservedIdentifier
    else if name = "super" then some .super
    else none
  | .unary _ op _ => if op.isAllowed then none else some (.operator op.spelling)
  | .binary _ op _ _ => if op.isAllowed then none else some (.operator op.spelling)
  | _ => none

end Expr

namespace SourceExpr

/-- The fault of the first node that is not allowed. -/
def violation? (e : SourceExpr) : Option Fault :=
  e.nodes.findSome? fun n => n.restriction?.map fun r => .restricted r (span n).start

def checkAllowed (e : SourceExpr) : Except Fault Unit :=
  match violation? e with
  | some f => .error f
  | none => .ok ()

end SourceExpr

end SigilExpr
