import SigilExpr.Expr.Parser
import SigilExpr.Token.Lexer

/-!
# From a source to an expression

A source is read within limits on its length in bytes and on the height of its tree.
-/

set_option autoImplicit false

namespace SigilExpr

/-- How long a source and how high its tree may be. -/
structure Limits where
  maxSourceLength : Nat := 4096
  maxDepth : Nat := 64
deriving DecidableEq

def SourceExpr.ofText (maxDepth : Nat) (source : List Char) : Except Fault SourceExpr := do
  parse maxDepth (← Token.ofSource source)

def SourceExpr.ofSource (limits : Limits) (source : List Char) : Except Fault SourceExpr :=
  let limit := limits.maxSourceLength
  if limit < Text.byteLength source then .error (.malformed (.tooLong limit) ⟨limit, limit⟩)
  else SourceExpr.ofText limits.maxDepth source

end SigilExpr
