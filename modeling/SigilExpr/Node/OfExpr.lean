import SigilExpr.Expr.Reference
import SigilExpr.Node.Basic

/-!
# From an expression to a compiled tree

A name becomes what it refers to, a helper that is not called is called without arguments, and a
property of the whole context is read directly. A literal that no value can hold is a fault.
-/

set_option autoImplicit false

namespace SigilExpr

namespace Node

def ofName (name : String) : Node :=
  match Reference.ofName name with
  | .helper => .helper name []
  | .contextRoot => .contextRoot
  | .context => .contextRead name

end Node

namespace Expr

def refersTo {Note : Type} (r : Reference) : Expr Note → Bool
  | .ident _ name => Reference.ofName name == r
  | _ => false

end Expr

namespace SourceExpr

mutual

/-- The compiled tree of an expression. The arguments of a call come before what is called. -/
def toNode : SourceExpr → Except Fault Node
  | .number mark x =>
    match Number.ofBinary64? x with
    | some n => .ok (.const (.number n))
    | none => .error (.malformed .numberOutOfRange mark.span)
  | .string _ s => .ok (.const (.string s))
  | .bool _ b => .ok (.const (.bool b))
  | .null _ => .ok (.const .null)
  | .ident _ name => .ok (.ofName name)
  | .unary _ op e => do return .unary op (← toNode e)
  | .binary _ op l r => do return .binary op (← toNode l) (← toNode r)
  | .logical _ op l r => do return .logical op (← toNode l) (← toNode r)
  | .conditional _ t a b => do return .conditional (← toNode t) (← toNode a) (← toNode b)
  | .member _ object name =>
    if object.refersTo .contextRoot then .ok (.contextRead name)
    else do return .member (← toNode object) name
  | .index _ object key => do return .index (← toNode object) (← toNode key)
  | .array _ items => do return .array (← toNodes items)
  | .call _ callee args => do
    let args ← toNodes args
    match callee with
    | .member _ object name => return .method (← toNode object) name args
    | .index _ object key => return .methodAt (← toNode object) (← toNode key) args
    | .ident _ name =>
      if Reference.ofName name = .helper then return .helper name args
      else return .callValue (.ofName name) args
    | callee => return .callValue (← toNode callee) args

def toNodes : List SourceExpr → Except Fault (List Node)
  | [] => .ok []
  | e :: es => do return (← toNode e) :: (← toNodes es)

end

end SourceExpr

end SigilExpr
