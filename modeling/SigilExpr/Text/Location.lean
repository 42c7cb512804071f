import SigilExpr.Text.Offset

/-!
# Lines and columns

A location names a place of a source three ways: by byte offset, by line and by column. Lines and
columns count from one, and columns count characters.
-/

set_option autoImplicit false

namespace SigilExpr

/-- A stretch of a source, from byte `start` up to byte `stop`. -/
structure Span where
  start : Nat
  stop : Nat
deriving DecidableEq, Inhabited

structure Location where
  offset : Nat
  line : Nat
  column : Nat
deriving DecidableEq, Inhabited

namespace Location

/-- The line and the column reached from `line` and `column` by reading `cs`. -/
def advance (line column : Nat) : List Char → Nat × Nat
  | [] => (line, column)
  | c :: cs => if c = '\n' then advance (line + 1) 1 cs else advance line (column + 1) cs

/-- The place at byte `offset` of `source`; an offset past the end is the end. -/
def ofOffset (source : List Char) (offset : Nat) : Location :=
  let offset := min offset (Text.byteLength source)
  let reached := advance 1 1 (Text.takeBytes offset source)
  ⟨offset, reached.1, reached.2⟩

def text (l : Location) : String :=
  s!"line {l.line}, column {l.column}"

end Location

end SigilExpr
