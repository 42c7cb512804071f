/-!
# Operators

The operators of the language with their spellings, and the ten levels at which those with two
operands bind. Some operators are read only to be refused.
-/

set_option autoImplicit false

namespace SigilExpr

inductive UnaryOp where
  | neg
  | plus
  | not
  | bitNot
  | typeof
  | void
  | delete
deriving DecidableEq

inductive BinaryOp where
  | add
  | sub
  | mul
  | div
  | mod
  | eq
  | notEq
  | strictEq
  | strictNotEq
  | lt
  | lte
  | gt
  | gte
  | shl
  | shr
  | ushr
  | bitAnd
  | bitOr
  | bitXor
  | isIn
  | instanceOf
deriving DecidableEq

inductive LogicalOp where
  | and
  | or
deriving DecidableEq

namespace UnaryOp

def spelling : UnaryOp → String
  | .neg => "-"
  | .plus => "+"
  | .not => "!"
  | .bitNot => "~"
  | .typeof => "typeof"
  | .void => "void"
  | .delete => "delete"

def isWord : UnaryOp → Bool
  | .typeof => true
  | .void => true
  | .delete => true
  | _ => false

def isAllowed (op : UnaryOp) : Bool := !op.isWord

end UnaryOp

namespace BinaryOp

def spelling : BinaryOp → String
  | .add => "+"
  | .sub => "-"
  | .mul => "*"
  | .div => "/"
  | .mod => "%"
  | .eq => "=="
  | .notEq => "!="
  | .strictEq => "==="
  | .strictNotEq => "!=="
  | .lt => "<"
  | .lte => "<="
  | .gt => ">"
  | .gte => ">="
  | .shl => "<<"
  | .shr => ">>"
  | .ushr => ">>>"
  | .bitAnd => "&"
  | .bitOr => "|"
  | .bitXor => "^"
  | .isIn => "in"
  | .instanceOf => "instanceof"

def isAllowed : BinaryOp → Bool
  | .isIn => false
  | .instanceOf => false
  | _ => true

/-- How tightly the operator binds; a higher level binds tighter. -/
def level : BinaryOp → Nat
  | .bitOr => 3
  | .bitXor => 4
  | .bitAnd => 5
  | .eq => 6
  | .notEq => 6
  | .strictEq => 6
  | .strictNotEq => 6
  | .lt => 7
  | .lte => 7
  | .gt => 7
  | .gte => 7
  | .isIn => 7
  | .instanceOf => 7
  | .shl => 8
  | .shr => 8
  | .ushr => 8
  | .add => 9
  | .sub => 9
  | .mul => 10
  | .div => 10
  | .mod => 10

end BinaryOp

namespace LogicalOp

def spelling : LogicalOp → String
  | .and => "&&"
  | .or => "||"

def level : LogicalOp → Nat
  | .or => 1
  | .and => 2

end LogicalOp

inductive Connective where
  | binary (op : BinaryOp)
  | logical (op : LogicalOp)
deriving DecidableEq

namespace Connective

def spelling : Connective → String
  | .binary op => op.spelling
  | .logical op => op.spelling

def level : Connective → Nat
  | .binary op => op.level
  | .logical op => op.level

end Connective

end SigilExpr
