import SigilExpr.Proofs.Binary64.Integers
import SigilExpr.Proofs.Checked.Basic
import SigilExpr.Proofs.Text.Search
import SigilExpr.Value.Method

/-!
# Methods with checked cuts

A machine may find the bounds of a slice by arithmetic on doubles, convert them to words and then cut
the row, which is a trap if the bounds are out of order or beyond the end. In a row of fewer than
`2 ^ 53` parts the arithmetic is exact wherever it matters, so that the bounds are the places that
the arguments name and the cut is no trap, whatever the arguments are.

A machine may also look for a text by its bytes and then cut the other text at the offset that it
finds, to count the characters in front. That offset is never within a character.
-/

set_option autoImplicit false

namespace SigilExpr.Checked

/-- A number with its fraction cut off, which needs no rounding. -/
def integerPart : Binary64 → Binary64
  | .finite negative m e => .finite negative (m * pow2 e.toNat / pow2 (-e).toNat) 0
  | x => x

/-- The greater of two numbers, or the second one if the first is no number. -/
def greater (x y : Binary64) : Binary64 :=
  if x = .nan ∨ x.compare? y = some .lt then y else x

/-- The lesser of two numbers, or the second one if the first is no number. -/
def lesser (x y : Binary64) : Binary64 :=
  if x = .nan ∨ x.compare? y = some .gt then y else x

/-- A number as a machine word: what is too great becomes the last word, and what is negative or no
number becomes zero. -/
def machineWord (x : Binary64) : Nat :=
  match x.truncate? with
  | some k => min k.toNat (pow2 64 - 1)
  | none => if x = .infinite false then pow2 64 - 1 else 0

/-- The bound that a number gives in a row of `length` parts, counted from the end if negative. -/
def bound (length : Nat) (x : Binary64) : Nat :=
  let raw := integerPart x
  let count := Binary64.ofNat length
  machineWord <|
    if raw.compare? (.signedZero false) = some .lt then
      greater (count.add raw) (.signedZero false)
    else lesser raw count

def boundArgument (length missing : Nat) : Option Value → Except RuntimeError Nat
  | none | some .null => .ok missing
  | some v => do return bound length (← v.toNumber)

/-- The parts from a first place up to a second, if the places are in order and in the row. -/
def range? {α : Type} (xs : List α) (start stop : Nat) : Option (List α) :=
  if start ≤ stop ∧ stop ≤ xs.length then some ((xs.take stop).drop start) else none

/-- The slice that the arguments name, or nothing where cutting it is a trap. -/
def sliceOf? {α : Type} (xs : List α) (args : List Value) :
    Except RuntimeError (Option (List α)) := do
  let start ← boundArgument xs.length 0 args[0]?
  let stop ← boundArgument xs.length xs.length args[1]?
  return range? xs start (max stop start)

section

variable {x y : Binary64} {k l : Int} {length : Nat}

theorem toInt?_integerPart (h : x.truncate? = some k) : (integerPart x).toInt? = some k := by
  cases x with
  | nan => cases h
  | infinite negative => cases h
  | finite negative m e =>
    have hunit : pow2 (0 : Int).toNat = 1 := rfl
    have hunit' : pow2 (-(0 : Int)).toNat = 1 := rfl
    simpa only [integerPart, Binary64.toInt?, Binary64.truncate?, hunit, hunit', Nat.mul_one,
      Nat.mod_one, Nat.div_one, if_true] using h

theorem ne_nan_of_toInt? (h : x.toInt? = some k) : x ≠ .nan := by
  rintro rfl
  cases h

theorem greater_eq (hx : x.toInt? = some k) (hy : y.toInt? = some l) :
    greater x y = if k < l then y else x := by
  simp only [greater, ne_nan_of_toInt? hx, false_or, Binary64.compare?_of_toInt? hx hy,
    Option.some.injEq, compare_lt_iff_lt]

theorem lesser_eq (hx : x.toInt? = some k) (hy : y.toInt? = some l) :
    lesser x y = if l < k then y else x := by
  simp only [lesser, ne_nan_of_toInt? hx, false_or, Binary64.compare?_of_toInt? hx hy,
    Option.some.injEq, compare_gt_iff_gt]

/-- An integer in the range of a row is its own machine word. -/
theorem machineWord_eq (hx : x.toInt? = some k) (hk : k < pow2 53) : machineWord x = k.toNat := by
  have hsmall : pow2 53 = 9007199254740992 := rfl
  have hlast : pow2 64 - 1 = 18446744073709551615 := rfl
  rw [machineWord, Binary64.truncate?_of_toInt? hx]
  exact Nat.min_eq_left (by omega)

/-- A negative number counts from the end, and no further back than to the beginning. -/
theorem machineWord_back (h : length < pow2 53) (hx : x.toInt? = some k) (hk : k < 0) :
    machineWord (greater ((Binary64.ofNat length).add x) (.signedZero false)) =
      (length + k).toNat := by
  have hcount := Binary64.toInt?_ofNat h.le
  have hzero := Binary64.toInt?_signedZero false
  rcases lt_or_ge (length + k) 0 with hbefore | hinside
  · have hbelow := Binary64.ofInt_compare?_zero hbefore
    rw [Binary64.add_eq_ofInt hcount hx hbefore.ne, greater, if_pos (.inr hbelow),
      machineWord_eq hzero (by decide), Int.toNat_of_nonpos hbefore.le]
    rfl
  · have hsum := Binary64.toInt?_add hcount hx (by omega)
    rw [greater_eq hsum hzero, if_neg hinside.not_gt, machineWord_eq hsum (by omega)]

/-- A number that is not negative counts from the beginning, and no further than to the end. -/
theorem machineWord_ahead (h : length < pow2 53) (hx : x.toInt? = some k) (hk : 0 ≤ k) :
    machineWord (lesser x (.ofNat length)) = min k.toNat length := by
  have hcount := Binary64.toInt?_ofNat h.le
  rw [lesser_eq hx hcount]
  split
  · rw [machineWord_eq hcount (by exact_mod_cast h)]
    omega
  · rw [machineWord_eq hx (by omega)]
    omega

/-- The arithmetic on doubles finds the place that a number names. -/
theorem bound_eq (h : length < pow2 53) (x : Binary64) :
    bound length x = Value.clampPlace length x := by
  have hcount := Binary64.toInt?_ofNat h.le
  have hword : machineWord (.ofNat length) = length := machineWord_eq hcount (by exact_mod_cast h)
  cases x with
  | nan => exact hword
  | infinite negative =>
    obtain ⟨m, e, hfinite, -⟩ := Binary64.eq_finite_of_toInt? hcount
    unfold bound
    generalize Binary64.ofNat length = count at *
    generalize count.isNegative = sign at *
    subst hfinite
    cases negative with
    | false => exact hword
    | true => exact machineWord_eq (Binary64.toInt?_signedZero false) (by decide)
  | finite negative m e =>
    obtain ⟨k, hk⟩ : ∃ k, (Binary64.finite negative m e).truncate? = some k := ⟨_, rfl⟩
    have hpart := toInt?_integerPart hk
    have hcompare := Binary64.compare?_of_toInt? hpart (Binary64.toInt?_signedZero false)
    simp only [bound, Value.clampPlace, hk, hcompare, Option.some.injEq, compare_lt_iff_lt]
    split
    · next hneg => exact machineWord_back h hpart hneg
    · next hpos => exact machineWord_ahead h hpart (not_lt.1 hpos)

theorem boundArgument_eq (h : length < pow2 53) (missing : Nat) (arg : Option Value) :
    boundArgument length missing arg = Value.placeArgument length missing arg := by
  cases arg with
  | none => rfl
  | some v => cases v <;> simp only [boundArgument, Value.placeArgument, bound_eq h]

end

theorem clampPlace_le (length : Nat) (x : Binary64) : Value.clampPlace length x ≤ length := by
  unfold Value.clampPlace
  split
  · next k _ =>
    split <;> omega
  · split <;> omega

theorem placeArgument_le {length missing place : Nat} {arg : Option Value}
    (h : Value.placeArgument length missing arg = .ok place) (hmissing : missing ≤ length) :
    place ≤ length := by
  unfold Value.placeArgument at h
  split at h
  · exact Except.ok.inj h ▸ hmissing
  · exact Except.ok.inj h ▸ hmissing
  · next v _ =>
    cases hx : v.toNumber with
    | error e =>
      rw [hx] at h
      cases h
    | ok x =>
      rw [hx] at h
      exact Except.ok.inj h ▸ clampPlace_le length x

/-- Bounds that are put in order cut the same parts, or none. -/
theorem range?_eq {α : Type} {xs : List α} {start stop : Nat} (hstart : start ≤ xs.length)
    (hstop : stop ≤ xs.length) :
    range? xs start (max stop start) = some ((xs.take stop).drop start) := by
  rw [range?, if_pos ⟨Nat.le_max_right _ _, Nat.max_le.2 ⟨hstop, hstart⟩⟩]
  rcases Nat.le_total start stop with hle | hle
  · rw [Nat.max_eq_left hle]
  · rw [Nat.max_eq_right hle, List.drop_eq_nil_of_le (by simp), List.drop_eq_nil_of_le]
    exact (List.length_take_le stop xs).trans hle

/-- No arguments make the cut a trap, and it gives what the slice without checks does. -/
theorem sliceOf?_eq {α : Type} {xs : List α} (h : xs.length < pow2 53) (args : List Value) :
    sliceOf? xs args = (Value.sliceOf xs args).map some := by
  simp only [sliceOf?, Value.sliceOf, boundArgument_eq h]
  cases hstart : Value.placeArgument xs.length 0 args[0]? with
  | error e => rfl
  | ok start =>
    cases hstop : Value.placeArgument xs.length xs.length args[1]? with
    | error e => rfl
    | ok stop =>
      have hrange := range?_eq (placeArgument_le hstart (Nat.zero_le _))
        (placeArgument_le hstop le_rfl)
      exact congrArg Except.ok hrange

/-- The characters in front of the first place at which the bytes of a text stand. -/
def indexOf (needle cs : List Char) : Except Alarm (Option Nat) :=
  match Text.firstPlace? (Text.bytes needle) (Text.bytes cs) with
  | none => .ok none
  | some offset =>
    match Text.splitAt? offset cs with
    | some (before, _) => .ok (some before.length)
    | none => .error (.trap .badCut)

/-- The search by bytes finds the same place, and the cut at its offset is no trap. -/
theorem indexOf_eq (needle cs : List Char) : indexOf needle cs = .ok (Text.search? needle cs) := by
  rw [indexOf, Text.firstPlace?_bytes, Text.search?_eq_find?, Text.find?_eq_firstPlace?]
  cases hfirst : Text.firstPlace? needle cs with
  | none => rfl
  | some i =>
    have hi := (Text.firstPlace?_eq_some_iff.1 hfirst).1
    have hsplit : Text.splitAt? (Text.byteLength (cs.take i)) cs = some (cs.take i, cs.drop i) :=
      Text.splitAt?_eq_some_iff.2 ⟨(List.take_append_drop i cs).symm, rfl⟩
    simp only [Option.map_some, hsplit, List.length_take_of_le hi]

end SigilExpr.Checked
