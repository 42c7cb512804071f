import SigilExpr.Text.Blank
import SigilExpr.Text.Location

/-!
# Stretches of a text

A stretch is a part of a text with its bounds in bytes. The bounds of a stretch are in order and lie
on boundaries, and cutting there gives back the part; a cut that checks its bounds gives nothing
else. One character counts for one byte only where it is printable in ASCII, which is all that a
word outside quotes is made of.
-/

set_option autoImplicit false

namespace SigilExpr.Text

/-- The bytes of `span` in the text are `mid`. -/
def Stretch (source : List Char) (span : Span) (mid : List Char) : Prop :=
  ∃ before after, source = before ++ mid ++ after ∧
    span = ⟨byteLength before, byteLength before + byteLength mid⟩

theorem isBoundary_byteLength (xs ys : List Char) : IsBoundary (xs ++ ys) (byteLength xs) :=
  ⟨xs, ys, rfl, rfl⟩

theorem byteLength_pos {cs : List Char} (h : cs ≠ []) : 0 < byteLength cs := by
  obtain ⟨c, cs, rfl⟩ := List.exists_cons_of_ne_nil h
  exact Nat.add_pos_left c.utf8Size_pos _

namespace Stretch

variable {source mid : List Char} {span : Span}

theorem start_le_stop (h : Stretch source span mid) : span.start ≤ span.stop := by
  obtain ⟨before, after, -, rfl⟩ := h
  exact Nat.le_add_right _ _

theorem start_lt_stop (h : Stretch source span mid) (hne : mid ≠ []) : span.start < span.stop := by
  obtain ⟨before, after, -, rfl⟩ := h
  exact Nat.lt_add_of_pos_right (byteLength_pos hne)

theorem isBoundary_start (h : Stretch source span mid) : IsBoundary source span.start := by
  obtain ⟨before, after, rfl, rfl⟩ := h
  rw [List.append_assoc]
  exact isBoundary_byteLength _ _

theorem isBoundary_stop (h : Stretch source span mid) : IsBoundary source span.stop := by
  obtain ⟨before, after, rfl, rfl⟩ := h
  rw [← byteLength_append]
  exact isBoundary_byteLength _ _

theorem slice_eq (h : Stretch source span mid) : slice source span.start span.stop = mid := by
  obtain ⟨before, after, rfl, rfl⟩ := h
  exact slice_append before mid after

end Stretch

/-- The parts of a text before and behind a byte offset, if the offset is on a boundary. -/
def splitAt? : Nat → List Char → Option (List Char × List Char)
  | 0, cs => some ([], cs)
  | _ + 1, [] => none
  | n + 1, c :: cs =>
    if c.utf8Size ≤ n + 1 then
      (splitAt? (n + 1 - c.utf8Size) cs).map fun parts => (c :: parts.1, parts.2)
    else none

theorem splitAt?_eq_some_iff {n : Nat} {cs xs ys : List Char} :
    splitAt? n cs = some (xs, ys) ↔ cs = xs ++ ys ∧ byteLength xs = n := by
  fun_induction splitAt? n cs generalizing xs with
  | case1 cs =>
    simp only [Option.some.injEq, Prod.mk.injEq]
    constructor
    · rintro ⟨rfl, rfl⟩
      exact ⟨rfl, rfl⟩
    · rintro ⟨rfl, hlen⟩
      cases xs with
      | nil => exact ⟨rfl, rfl⟩
      | cons x xs => exact absurd hlen (Nat.ne_of_gt (byteLength_pos (by simp)))
  | case2 n =>
    refine iff_of_false (by simp) ?_
    rintro ⟨hnil, hlen⟩
    obtain ⟨rfl, rfl⟩ := List.append_eq_nil_iff.1 hnil.symm
    cases hlen
  | case3 n c cs hle ih =>
    simp only [Option.map_eq_some_iff, Prod.exists, Prod.mk.injEq]
    constructor
    · rintro ⟨us, vs, h, rfl, rfl⟩
      obtain ⟨rfl, hlen⟩ := ih.1 h
      exact ⟨rfl, by rw [byteLength_cons]; omega⟩
    · rintro ⟨heq, hlen⟩
      cases xs with
      | nil => cases hlen
      | cons x xs =>
        obtain ⟨rfl, rfl⟩ := List.cons.inj heq
        rw [byteLength_cons] at hlen
        exact ⟨xs, ys, ih.2 ⟨rfl, by omega⟩, rfl, rfl⟩
  | case4 n c cs hle =>
    refine iff_of_false (by simp) ?_
    rintro ⟨heq, hlen⟩
    cases xs with
    | nil => cases hlen
    | cons x xs =>
      obtain ⟨rfl, rfl⟩ := List.cons.inj heq
      rw [byteLength_cons] at hlen
      omega

/-- The text of a span, if its bounds are in order and on boundaries. -/
def cut? (source : List Char) (span : Span) : Option (List Char) :=
  if span.start ≤ span.stop then
    (splitAt? span.start source).bind fun parts =>
      (splitAt? (span.stop - span.start) parts.2).map Prod.fst
  else none

theorem cut?_eq_some_iff {source mid : List Char} {span : Span} :
    cut? source span = some mid ↔ Stretch source span mid := by
  unfold cut?
  split
  · next hle =>
    simp only [Option.bind_eq_some_iff, Option.map_eq_some_iff, Prod.exists, splitAt?_eq_some_iff]
    constructor
    · rintro ⟨before, _, ⟨rfl, hstart⟩, _, after, ⟨rfl, hstop⟩, rfl⟩
      refine ⟨before, after, by simp, ?_⟩
      rw [hstart, hstop, Nat.add_sub_cancel' hle]
    · rintro ⟨before, after, rfl, rfl⟩
      exact ⟨before, mid ++ after, ⟨by simp, rfl⟩, mid, after, ⟨rfl, by simp⟩, rfl⟩
  · next hle =>
    exact iff_of_false (by simp) fun h => hle h.start_le_stop

/-- The character is an ASCII character that can be seen. -/
def Printable (c : Char) : Prop := 0x20 < c.toNat ∧ c.toNat < 0x7F

theorem utf8Size_of_printable {c : Char} (h : Printable c) : c.utf8Size = 1 :=
  Char.utf8Size_eq_one_iff.2 (UInt32.le_iff_toNat_le.2 (Nat.le_of_lt h.2))

theorem byteLength_of_printable {cs : List Char} (h : ∀ c ∈ cs, Printable c) :
    byteLength cs = cs.length := by
  induction cs with
  | nil => rfl
  | cons c cs ih =>
    obtain ⟨hc, hcs⟩ := List.forall_mem_cons.1 h
    rw [byteLength_cons, utf8Size_of_printable hc, ih hcs, List.length_cons, Nat.add_comm]

theorem not_printable_of_isBlank {c : Char} (h : isBlank c = true) : ¬ Printable c := by
  rintro ⟨hlow, hhigh⟩
  simp only [isBlank, blankRanges, List.any_cons, List.any_nil, Bool.or_false, Bool.or_eq_true,
    Bool.and_eq_true, decide_eq_true_eq] at h
  omega

/-- What holds of printable characters only does not hold of a blank. -/
theorem eq_false_of_isBlank {p : Char → Bool} (hp : ∀ c, p c = true → Printable c) {c : Char}
    (h : isBlank c = true) : p c = false := by
  cases hpc : p c with
  | false => rfl
  | true => exact absurd (hp c hpc) (not_printable_of_isBlank h)

end SigilExpr.Text
