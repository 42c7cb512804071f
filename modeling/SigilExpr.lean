import SigilExpr.Helper.Stock
import SigilExpr.Session
import SigilExpr.Proofs.Text.Stretch
import SigilExpr.Proofs.Text.Location
import SigilExpr.Proofs.Token.Literal
import SigilExpr.Proofs.Token.Row
import SigilExpr.Proofs.Token.Spelling
import SigilExpr.Proofs.Token.Delimited
import SigilExpr.Proofs.Token.Pieces
import SigilExpr.Proofs.Token.Spacing
import SigilExpr.Proofs.Syntax.Subexpressions
import SigilExpr.Proofs.Syntax.Grammar
import SigilExpr.Proofs.Syntax.Phrase
import SigilExpr.Proofs.Syntax.Climbing
import SigilExpr.Proofs.Syntax.Soundness
import SigilExpr.Proofs.Syntax.Completeness
import SigilExpr.Proofs.Syntax.Unambiguity
import SigilExpr.Proofs.Syntax.Acceptance
import SigilExpr.Proofs.Syntax.Grouping
import SigilExpr.Proofs.Syntax.Limits
import SigilExpr.Proofs.Syntax.Words
import SigilExpr.Proofs.Syntax.Spans
import SigilExpr.Proofs.Syntax.Nesting
import SigilExpr.Proofs.Syntax.Placement
import SigilExpr.Proofs.Syntax.Beginnings
import SigilExpr.Proofs.Syntax.Failures
import SigilExpr.Proofs.Checked.Basic
import SigilExpr.Proofs.Checked.Lexer
import SigilExpr.Proofs.Checked.Parser
import SigilExpr.Proofs.Checked.Safety
import SigilExpr.Proofs.Checked.Lookahead
import SigilExpr.Proofs.Syntax.Earliest
import SigilExpr.Proofs.Syntax.Written
import SigilExpr.Proofs.Node.Lowering
import SigilExpr.Proofs.Node.OutOfRange
import SigilExpr.Proofs.Reference.Agreement
import SigilExpr.Proofs.Eval.Induction
import SigilExpr.Proofs.Eval.Calls
import SigilExpr.Proofs.Eval.Exchanges
import SigilExpr.Proofs.Eval.Order
import SigilExpr.Proofs.Eval.Failure
import SigilExpr.Proofs.Eval.Locality
import SigilExpr.Proofs.Eval.Kept
import SigilExpr.Proofs.Value.Canonical
import SigilExpr.Proofs.Helper.Growth
import SigilExpr.Proofs.Helper.Kept
import SigilExpr.Proofs.Helper.Registration
import SigilExpr.Proofs.Engine.Compile
import SigilExpr.Proofs.Engine.HelperSource
import SigilExpr.Proofs.Engine.Kept
import SigilExpr.Proofs.Engine.Names
import SigilExpr.Proofs.Engine.Canonical
import SigilExpr.Proofs.Engine.ContextAccess
import SigilExpr.Proofs.Engine.Restrictions
import SigilExpr.Proofs.Engine.Diagnostics
import SigilExpr.Proofs.NameMap
import SigilExpr.Proofs.Session.History
import SigilExpr.Proofs.Session.Coherence
import SigilExpr.Proofs.Session.Helpers
import SigilExpr.Proofs.Session.Keeping
import SigilExpr.Proofs.Session.Transparency
import SigilExpr.Proofs.Session.Confinement
import SigilExpr.Proofs.Session.Independence
import SigilExpr.Proofs.Session.Registration
import SigilExpr.Proofs.Session.Contents
import SigilExpr.Proofs.Binary64.Round
import SigilExpr.Proofs.Binary64.Quantity
import SigilExpr.Proofs.Decimal.Shortest
import SigilExpr.Proofs.Decimal.Numeral
import SigilExpr.Proofs.Decimal.Layout
import SigilExpr.Proofs.Decimal.Plain
import SigilExpr.Proofs.Token.Content
import SigilExpr.Proofs.Token.Grouped
import SigilExpr.Proofs.Reference.Located
import SigilExpr.Proofs.Value.Text
import SigilExpr.Proofs.Value.Keys
import SigilExpr.Proofs.Value.Equality
import SigilExpr.Proofs.Value.Equivalence
import SigilExpr.Proofs.Node.Content
import SigilExpr.Proofs.Node.Chain
import SigilExpr.Proofs.Node.Text
import SigilExpr.Proofs.Node.Parts
import SigilExpr.Proofs.Node.Beginnings
import SigilExpr.Proofs.Node.Readability
import SigilExpr.Proofs.Node.Height
import SigilExpr.Proofs.Node.Bare
import SigilExpr.Proofs.Eval.ShortCircuit
import SigilExpr.Proofs.Engine.Levels
import SigilExpr.Proofs.Engine.Operands
import SigilExpr.Proofs.Token.NumberEnd
import SigilExpr.Proofs.Text.Search
import SigilExpr.Proofs.Binary64.Exact
import SigilExpr.Proofs.Binary64.Integers
import SigilExpr.Proofs.Binary64.Words
import SigilExpr.Proofs.Binary64.Digitwise
import SigilExpr.Proofs.Token.Hexadecimal
import SigilExpr.Proofs.Value.Integers
import SigilExpr.Proofs.Value.Arithmetic
import SigilExpr.Proofs.Value.Words
import SigilExpr.Proofs.Value.Bitwise
import SigilExpr.Proofs.Checked.Method
import SigilExpr.Proofs.Value.Slice
import SigilExpr.Proofs.Value.Positions
