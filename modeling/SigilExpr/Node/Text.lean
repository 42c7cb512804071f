import SigilExpr.Node.Basic
import SigilExpr.Token.Basic
import SigilExpr.Value.Text

/-!
# Compiled trees as text

The text of a compiled tree shows every operator in parentheses and every helper with the registry
that it is called on, under the reserved name.
-/

set_option autoImplicit false

namespace SigilExpr.Node

def propertyText (name : String) : String :=
  if isName name.toList then "." ++ name else "[" ++ Text.quoted name ++ "]"

def unaryText (op : UnaryOp) : String :=
  if op.isWord then op.spelling ++ " " else op.spelling

def infixText (left spelling right : String) : String :=
  "(" ++ left ++ " " ++ spelling ++ " " ++ right ++ ")"

def argsText (args : List String) : String :=
  "(" ++ ", ".intercalate args ++ ")"

mutual

def text : Node → String
  | .const v => v.text
  | .contextRoot => "$"
  | .contextRead name => "$" ++ propertyText name
  | .helper name args => "await _." ++ name ++ argsText ("_" :: textAll args)
  | .unary op e => "(" ++ unaryText op ++ text e ++ ")"
  | .binary op l r => infixText (text l) op.spelling (text r)
  | .logical op l r => infixText (text l) op.spelling (text r)
  | .conditional t a b => "(" ++ text t ++ " ? " ++ text a ++ " : " ++ text b ++ ")"
  | .member o name => text o ++ propertyText name
  | .index o k => text o ++ "[" ++ text k ++ "]"
  | .method o name args => text o ++ propertyText name ++ argsText (textAll args)
  | .methodAt o k args => text o ++ "[" ++ text k ++ "]" ++ argsText (textAll args)
  | .callValue f args => text f ++ argsText (textAll args)
  | .array items => "[" ++ ", ".intercalate (textAll items) ++ "]"

def textAll : List Node → List String
  | [] => []
  | n :: ns => text n :: textAll ns

end

end SigilExpr.Node
