import SigilExpr.Operator
import SigilExpr.Value.Basic

/-!
# Compiled trees

A node is a step that runs: names have become reads of the context or calls of helpers, and a call
after a point is the call of a method. The call of any other value is kept, since it fails only
after its parts have run.
-/

set_option autoImplicit false

namespace SigilExpr

inductive Node where
  | const (v : Value)
  | contextRoot
  | contextRead (name : String)
  | helper (name : String) (args : List Node)
  | unary (op : UnaryOp) (operand : Node)
  | binary (op : BinaryOp) (left right : Node)
  | logical (op : LogicalOp) (left right : Node)
  | conditional (test consequent alternate : Node)
  | member (object : Node) (name : String)
  | index (object key : Node)
  | method (object : Node) (name : String) (args : List Node)
  | methodAt (object key : Node) (args : List Node)
  | callValue (callee : Node) (args : List Node)
  | array (items : List Node)
deriving Inhabited

namespace Node

mutual

/-- Whether two trees are equal, constants being compared as values. -/
def same : Node → Node → Bool
  | .const v, .const w => v.same w
  | .contextRoot, .contextRoot => true
  | .contextRead m, .contextRead n => m == n
  | .helper m xs, .helper n ys => m == n && sameAll xs ys
  | .unary o x, .unary p y => o == p && same x y
  | .binary o a b, .binary p c d => o == p && same a c && same b d
  | .logical o a b, .logical p c d => o == p && same a c && same b d
  | .conditional a b c, .conditional x y z => same a x && same b y && same c z
  | .member x m, .member y n => same x y && m == n
  | .index a b, .index c d => same a c && same b d
  | .method x m xs, .method y n ys => same x y && m == n && sameAll xs ys
  | .methodAt a b xs, .methodAt c d ys => same a c && same b d && sameAll xs ys
  | .callValue x xs, .callValue y ys => same x y && sameAll xs ys
  | .array xs, .array ys => sameAll xs ys
  | _, _ => false

def sameAll : List Node → List Node → Bool
  | [], [] => true
  | x :: xs, y :: ys => same x y && sameAll xs ys
  | _, _ => false

end

end Node

end SigilExpr
