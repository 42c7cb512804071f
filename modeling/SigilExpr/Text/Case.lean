import SigilExpr.Text.CaseTable

/-!
# Upper and lower case

A text is put into upper case character by character. Lower case is the same but for the capital
sigma, whose form depends on whether it ends a word.
-/

set_option autoImplicit false

namespace SigilExpr.Text

def shifted (runs : List CaseRun) (n : Nat) : Nat :=
  match runs.find? fun r => r.first ≤ n && n ≤ r.last && (n - r.first) % r.step == 0 with
  | some r => ((n : Int) + r.offset).toNat
  | none => n

/-- The other case form of one character, from a table of rows and a table of runs. -/
def changed (rows : List (Nat × List Nat)) (runs : List CaseRun) (c : Char) :
    List Char :=
  match rows.lookup c.toNat with
  | some row => row.map Char.ofNat
  | none => [Char.ofNat (shifted runs c.toNat)]

def upper (cs : List Char) : List Char :=
  cs.flatMap (changed upperRows upperRuns)

def inRanges (ranges : List (Nat × Nat)) (c : Char) : Bool :=
  ranges.any fun r => r.1 ≤ c.toNat && c.toNat ≤ r.2

/-- Whether the first character of `cs` that is not passed over is cased. -/
def meetsCased (cs : List Char) : Bool :=
  match cs.dropWhile (inRanges passedRanges) with
  | c :: _ => inRanges casedRanges c
  | [] => false

/-- `cs` in lower case, where `before` holds the characters before it, the nearest first. -/
def lowerAfter (before : List Char) : List Char → List Char
  | [] => []
  | c :: cs =>
    let form :=
      if c = '\u03a3' then
        if meetsCased before && !meetsCased cs then ['\u03c2'] else ['\u03c3']
      else changed lowerRows lowerRuns c
    form ++ lowerAfter (c :: before) cs

def lower (cs : List Char) : List Char := lowerAfter [] cs

example : upper ['ß', 'é'] = ['S', 'S', 'É'] := by decide +kernel

example : lower ['Ο', 'Σ', ' ', 'Σ', 'Α'] = ['ο', 'ς', ' ', 'σ', 'α'] := by decide +kernel

end SigilExpr.Text
