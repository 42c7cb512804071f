import SigilExpr.Proofs.Checked.Method
import SigilExpr.Proofs.Value.Integers

/-!
# Slices of arrays and strings

An array is a row of values and a string is a row of characters. A slice is a row of the same kind
with the parts from one place up to another, and two slices that meet at one place make up the whole
row, whatever number names that place.
-/

set_option autoImplicit false

namespace SigilExpr.Value

/-- The place that an integer names: a negative one counts from the end. -/
def clamped (length : Nat) (i : Int) : Nat :=
  if i < 0 then (max (length + i) 0).toNat else (min i length).toNat

/-- An argument names a place: an integer does, and null or no argument names the missing one. -/
inductive Designates (length missing : Nat) : Option Value → Nat → Prop where
  | absent : Designates length missing none missing
  | null : Designates length missing (some .null) missing
  | integer {v : Value} {i : Int} (h : v.IsInteger i) :
    Designates length missing (some v) (clamped length i)

/-- `ys` are the parts of `xs` from `start` up to `stop`, in order, and none if `stop` is not behind
`start`. -/
structure IsPart {α : Type} (xs : List α) (start stop : Nat) (ys : List α) : Prop where
  length : ys.length = stop - start
  parts : ∀ i < ys.length, ys[i]? = xs[start + i]?
  empty : stop ≤ start → ys = []

section

variable {α : Type} {xs : List α} {args : List Value} {arg : Option Value} {v : Value}
  {x : Binary64} {length missing place start stop : Nat}

theorem clampPlace_of_toInt? {i : Int} (h : x.toInt? = some i) :
    clampPlace length x = clamped length i := by
  rw [clampPlace, Binary64.truncate?_of_toInt? h, clamped]
  dsimp only
  split <;> omega

theorem placeArgument_of_toNumber (hv : v ≠ .null) (hx : v.toNumber = .ok x) :
    placeArgument length missing (some v) = .ok (clampPlace length x) := by
  unfold placeArgument
  split
  · next habsent => cases habsent
  · next hnull => exact absurd (Option.some.inj hnull) hv
  · next w hw =>
    obtain rfl := Option.some.inj hw
    rw [hx]
    rfl

theorem Designates.placeArgument_eq (h : Designates length missing arg place) :
    placeArgument length missing arg = .ok place := by
  cases h with
  | absent => rfl
  | null => rfl
  | @integer v i hv =>
    have hne : v ≠ .null := by
      obtain ⟨m, rfl, -⟩ := hv
      exact Value.noConfusion
    obtain ⟨x, hx, hi⟩ := hv.toNumber
    rw [placeArgument_of_toNumber hne hx, clampPlace_of_toInt? hi]

theorem isPart_of_le (hstop : stop ≤ xs.length) : IsPart xs start stop ((xs.take stop).drop start) := by
  have hlength : ((xs.take stop).drop start).length = stop - start := by
    rw [List.length_drop, List.length_take_of_le hstop]
  refine ⟨hlength, ?_, ?_⟩
  · intro i hi
    rw [List.getElem?_drop, List.getElem?_take_of_lt (by omega)]
  · intro hle
    exact List.eq_nil_of_length_eq_zero (by omega)

/-- The places determine the parts between them. -/
theorem IsPart.unique {ys zs : List α} (hy : IsPart xs start stop ys) (hz : IsPart xs start stop zs) :
    ys = zs := by
  have hlength : ys.length = zs.length := hy.length.trans hz.length.symm
  apply List.ext_getElem?
  intro i
  by_cases hi : i < ys.length
  · exact (hy.parts i hi).trans (hz.parts i (hlength ▸ hi)).symm
  · rw [List.getElem?_eq_none (not_lt.1 hi), List.getElem?_eq_none (hlength ▸ not_lt.1 hi)]

theorem sliceOf_eq (hstart : placeArgument xs.length 0 args[0]? = .ok start)
    (hstop : placeArgument xs.length xs.length args[1]? = .ok stop) :
    sliceOf xs args = .ok ((xs.take stop).drop start) := by
  rw [sliceOf, hstart, hstop]
  rfl

/-- What is in front of a place and what is behind it. -/
theorem sliceOf_split (xs : List α) (hv : v ≠ .null) (hx : v.toNumber = .ok x) :
    sliceOf xs [.int 0, v] = .ok (xs.take (clampPlace xs.length x)) ∧
      sliceOf xs [v] = .ok (xs.drop (clampPlace xs.length x)) := by
  have hzero : (Value.int 0).IsInteger 0 := isInteger_int (Nat.zero_le _)
  have hbegin : placeArgument xs.length 0 (some (.int 0)) = .ok (clamped xs.length 0) :=
    (Designates.integer hzero).placeArgument_eq
  constructor
  · exact (sliceOf_eq hbegin (placeArgument_of_toNumber hv hx)).trans rfl
  · refine (sliceOf_eq (placeArgument_of_toNumber hv hx) rfl).trans ?_
    rw [List.take_length]

theorem call_array {items : List Value} {name : String} (h : name ≠ "toString") :
    call (.array items) (.string name) args = callArray items name args :=
  if_neg h

theorem call_string {s name : String} (h : name ≠ "toString") :
    call (.string s) (.string name) args = callString s name args :=
  if_neg h

end

/-- The receiver is a row of parts, and its slices are rows of them, of which `build` makes values. -/
structure SlicesBy {α : Type} (receiver : Value) (xs : List α) (build : List α → Value) : Prop where
  /-- Integers name the places from which and up to which the slice goes. -/
  parts : ∀ (args : List Value) {start stop : Nat}, Designates xs.length 0 args[0]? start →
    Designates xs.length xs.length args[1]? stop →
    ∃ ys, call receiver (.string "slice") args = .ok (build ys) ∧ IsPart xs start stop ys
  /-- Two slices that meet at what is a number make up the row. -/
  split : ∀ {v : Value} {x : Binary64}, v ≠ .null → v.toNumber = .ok x →
    ∃ front back, call receiver (.string "slice") [.int 0, v] = .ok (build front) ∧
      call receiver (.string "slice") [v] = .ok (build back) ∧ front ++ back = xs
  /-- Whatever the arguments are, a cut with bounds in double precision is not out of bounds. -/
  inside : ∀ args : List Value, ∃ r : Except RuntimeError (List α),
    Checked.sliceOf? xs args = r.map some ∧
      call receiver (.string "slice") args = r.map build

theorem slicesBy {α : Type} {receiver : Value} {xs : List α} {build : List α → Value}
    (h : xs.length < pow2 53)
    (hcall : ∀ args, call receiver (.string "slice") args = (sliceOf xs args).map build) :
    SlicesBy receiver xs build where
  parts args start stop hstart hstop := by
    refine ⟨_, ?_, isPart_of_le (Checked.placeArgument_le hstop.placeArgument_eq le_rfl)⟩
    rw [hcall, sliceOf_eq hstart.placeArgument_eq hstop.placeArgument_eq]
    rfl
  split {v x} hv hx := by
    obtain ⟨hfront, hback⟩ := sliceOf_split xs hv hx
    refine ⟨_, _, ?_, ?_, List.take_append_drop (clampPlace xs.length x) xs⟩
    · rw [hcall, hfront]
      rfl
    · rw [hcall, hback]
      rfl
  inside args := ⟨sliceOf xs args, Checked.sliceOf?_eq h args, hcall args⟩

/--
A slice of an array or a string of fewer than `2 ^ 53` parts has the parts between the places that
its arguments name. Two slices that meet at any number make up the whole, and no arguments take the
bounds, which are computed in double precision, out of the row.
-/
theorem slice_between_places :
    (∀ items : List Value, items.length < pow2 53 → SlicesBy (.array items) items .array) ∧
      ∀ s : String, s.toList.length < pow2 53 →
        SlicesBy (.string s) s.toList fun cs => .string (String.ofList cs) := by
  constructor
  · intro items h
    refine slicesBy h fun args => ?_
    rw [call_array (by decide)]
    rfl
  · intro s h
    refine slicesBy h fun args => ?_
    rw [call_string (by decide)]
    rfl

/-- The slice from the last but two characters up to the last one. -/
theorem slice_between_places_sample :
    "naïve".toList.length < pow2 53 ∧
    Designates "naïve".toList.length 0 (some (.int (-3))) 2 ∧
    Designates "naïve".toList.length 5 (some (.int (-1))) 4 ∧
    call (.string "naïve") (.string "slice") [.int (-3), .int (-1)] = .ok (.string "ïv") := by
  have hlength : "naïve".toList.length < pow2 53 := by decide
  have hstart : Designates "naïve".toList.length 0 (some (.int (-3))) 2 :=
    .integer (i := -3) (isInteger_int (by decide))
  have hstop : Designates "naïve".toList.length 5 (some (.int (-1))) 4 :=
    .integer (i := -1) (isInteger_int (by decide))
  obtain ⟨ys, hcall, hys⟩ := (slice_between_places.2 "naïve" hlength).parts
    [.int (-3), .int (-1)] hstart hstop
  obtain rfl : ys = ['ï', 'v'] := hys.unique (isPart_of_le (by decide))
  exact ⟨hlength, hstart, hstop, hcall⟩

end SigilExpr.Value
