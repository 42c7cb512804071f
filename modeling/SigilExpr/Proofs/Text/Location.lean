import Mathlib.Data.List.Induction
import Mathlib.Data.Prod.Lex
import SigilExpr.Text.Location

/-!
# Lines and columns of a boundary

The line of a boundary is one more than the number of line breaks before it, and the column one more
than the number of characters since the last of them. Reading one character moves a place forward,
to a later line or within its line, so that boundaries are in the order of their lines and columns
and no two of them have the same. Offsets within a character are not spoken of here.
-/

set_option autoImplicit false

namespace SigilExpr

namespace Text

/-- The characters behind the last line break. -/
def lastLine (cs : List Char) : List Char := (cs.reverse.takeWhile (· ≠ '\n')).reverse

theorem lastLine_concat (cs : List Char) (c : Char) :
    lastLine (cs ++ [c]) = if c = '\n' then [] else lastLine cs ++ [c] := by
  by_cases hc : c = '\n' <;> simp [lastLine, hc]

/-- What stands behind the last line break is the part without line breaks at the end of a text,
which begins with the text or behind a line break. -/
theorem exists_lines (cs : List Char) : ∃ lines, cs = lines ++ lastLine cs ∧
    (lines = [] ∨ lines.getLast? = some '\n') ∧ '\n' ∉ lastLine cs := by
  induction cs using List.reverseRecOn with
  | nil => exact ⟨[], rfl, .inl rfl, List.not_mem_nil⟩
  | append_singleton cs c ih =>
    obtain ⟨lines, hsplit, hlines, hcurrent⟩ := ih
    rw [lastLine_concat]
    by_cases hc : c = '\n'
    · subst hc
      rw [if_pos rfl]
      exact ⟨cs ++ ['\n'], (List.append_nil _).symm, .inr List.getLast?_concat, List.not_mem_nil⟩
    · rw [if_neg hc]
      refine ⟨lines, ?_, hlines, ?_⟩
      · rw [← List.append_assoc, ← hsplit]
      · simpa [hcurrent] using Ne.symm hc

end Text

open Text

namespace Location

theorem advance_append (line column : Nat) (xs ys : List Char) :
    advance line column (xs ++ ys) =
      advance (advance line column xs).1 (advance line column xs).2 ys := by
  induction xs generalizing line column with
  | nil => rfl
  | cons c xs ih =>
    simp only [List.cons_append, advance]
    split
    · exact ih _ _
    · exact ih _ _

/-- What is counted from the front of a text, by induction on its last character. -/
theorem advance_eq (cs : List Char) :
    advance 1 1 cs = (1 + cs.count '\n', 1 + (lastLine cs).length) := by
  induction cs using List.reverseRecOn with
  | nil => rfl
  | append_singleton cs c ih =>
    rw [advance_append, ih, lastLine_concat]
    by_cases hc : c = '\n' <;> simp [advance, hc, Nat.add_assoc]

theorem ofOffset_eq (xs ys : List Char) :
    ofOffset (xs ++ ys) (byteLength xs) =
      ⟨byteLength xs, 1 + xs.count '\n', 1 + (lastLine xs).length⟩ := by
  have hle : byteLength xs ≤ byteLength (xs ++ ys) := by simp
  simp only [ofOffset, Nat.min_eq_left hle, takeBytes_byteLength_append, advance_eq]

/-- Line and column, in the order in which places follow each other: the line counts first. -/
def coordinates (l : Location) : Nat ×ₗ Nat := toLex (l.line, l.column)

theorem lt_advance_singleton (line column : Nat) (c : Char) :
    toLex (line, column) < toLex (advance line column [c]) := by
  rw [Prod.Lex.toLex_lt_toLex]
  by_cases hc : c = '\n'
  · exact .inl (by simp [advance, hc])
  · exact .inr (by simp [advance, hc])

/-- Reading on moves a place forward, by induction on what is read. -/
theorem lt_advance (line column : Nat) {cs : List Char} (h : cs ≠ []) :
    toLex (line, column) < toLex (advance line column cs) := by
  induction cs generalizing line column with
  | nil => exact absurd rfl h
  | cons c cs ih =>
    have hstep := lt_advance_singleton line column c
    rw [← List.singleton_append, advance_append]
    by_cases hcs : cs = []
    · rw [hcs]
      exact hstep
    · exact hstep.trans (ih _ _ hcs)

theorem coordinates_ofOffset (xs ys : List Char) :
    (ofOffset (xs ++ ys) (byteLength xs)).coordinates = toLex (advance 1 1 xs) := by
  rw [ofOffset_eq, advance_eq]
  rfl

theorem coordinates_lt {source : List Char} {p q : Nat} (hp : IsBoundary source p)
    (hq : IsBoundary source q) (h : p < q) :
    (ofOffset source p).coordinates < (ofOffset source q).coordinates := by
  obtain ⟨xs, ys, hsource, rfl⟩ := hp
  obtain ⟨us, vs, rfl, rfl⟩ := hq
  -- The longer of two first parts is the shorter one and something behind it.
  have hpart : xs <+: us := by
    refine (List.prefix_or_prefix_of_prefix ⟨ys, hsource.symm⟩ ⟨vs, rfl⟩).resolve_right ?_
    rintro ⟨mid, rfl⟩
    rw [byteLength_append] at h
    omega
  obtain ⟨mid, rfl⟩ := hpart
  have hmid : mid ≠ [] := by
    rintro rfl
    rw [List.append_nil] at h
    exact Nat.lt_irrefl _ h
  rw [coordinates_ofOffset, hsource, coordinates_ofOffset, advance_append]
  exact lt_advance _ _ hmid

/-- Behind the end of a text no other place comes. -/
theorem ofOffset_of_le {source : List Char} {offset : Nat} (h : byteLength source ≤ offset) :
    ofOffset source offset = ofOffset source (byteLength source) := by
  simp only [ofOffset, Nat.min_eq_right h, Nat.min_self]

/--
The place of a boundary has the line that counts the line breaks before it and the column that
counts the characters behind the last of them, both from one on. Of two boundaries the earlier one
has the smaller coordinates, so that no two have the same; and an offset past the end is the end.
-/
theorem coordinates_are_faithful (source : List Char) :
    (∀ before after, source = before ++ after →
      ofOffset source (byteLength before) =
        ⟨byteLength before, 1 + before.count '\n', 1 + (lastLine before).length⟩ ∧
      ∃ lines, before = lines ++ lastLine before ∧
        (lines = [] ∨ lines.getLast? = some '\n') ∧ '\n' ∉ lastLine before) ∧
    (∀ p q, IsBoundary source p → IsBoundary source q → p < q →
      (ofOffset source p).coordinates < (ofOffset source q).coordinates) ∧
    (∀ p q, IsBoundary source p → IsBoundary source q →
      (ofOffset source p).coordinates = (ofOffset source q).coordinates → p = q) ∧
    ∀ offset, byteLength source ≤ offset →
      ofOffset source offset = ofOffset source (byteLength source) := by
  refine ⟨?_, fun p q hp hq => coordinates_lt hp hq, ?_, fun offset => ofOffset_of_le⟩
  · rintro before after rfl
    exact ⟨ofOffset_eq before after, exists_lines before⟩
  · intro p q hp hq heq
    rcases Nat.lt_trichotomy p q with hlt | hlt | hlt
    · exact absurd heq (coordinates_lt hp hq hlt).ne
    · exact hlt
    · exact absurd heq (coordinates_lt hq hp hlt).ne'

/-- The boundaries around the line break of a text of four bytes, and an offset past its end. -/
theorem coordinates_are_faithful_sample :
    IsBoundary ['\u00e9', '\n', 'b'] 2 ∧ IsBoundary ['\u00e9', '\n', 'b'] 3 ∧
    ofOffset ['\u00e9', '\n', 'b'] 2 = ⟨2, 1, 2⟩ ∧
    ofOffset ['\u00e9', '\n', 'b'] 3 = ⟨3, 2, 1⟩ ∧
    (ofOffset ['\u00e9', '\n', 'b'] 2).coordinates <
      (ofOffset ['\u00e9', '\n', 'b'] 3).coordinates ∧
    ofOffset ['\u00e9', '\n', 'b'] 9 = ofOffset ['\u00e9', '\n', 'b'] 4 := by
  have hp : IsBoundary ['\u00e9', '\n', 'b'] 2 := ⟨['\u00e9'], ['\n', 'b'], rfl, rfl⟩
  have hq : IsBoundary ['\u00e9', '\n', 'b'] 3 := ⟨['\u00e9', '\n'], ['b'], rfl, rfl⟩
  obtain ⟨hplace, hbefore, -, hend⟩ := coordinates_are_faithful ['\u00e9', '\n', 'b']
  exact ⟨hp, hq, (hplace ['\u00e9'] ['\n', 'b'] rfl).1, (hplace ['\u00e9', '\n'] ['b'] rfl).1,
    hbefore 2 3 hp hq (by decide), hend 9 (by decide)⟩

end Location

end SigilExpr
