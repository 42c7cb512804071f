import SigilExpr.Proofs.Value.Keys
import SigilExpr.Proofs.Value.Slice

/-!
# Positions in strings

The length of a string, the places that are read from it, the place at which another string is found
and the bounds of slices all count characters. So what a search says can be checked by slices, and so
can what is read at a place.
-/

set_option autoImplicit false

namespace SigilExpr.Value

variable {s t : String} {cs : List Char} {length missing p q : Nat}

/-- A natural names its place, or the end if it is beyond. -/
theorem clampPlace_ofNat (h : length < pow2 53) (p : Nat) :
    clampPlace length (.ofNat p) = min p length := by
  have hclamped (i : Nat) : clamped length i = min i length := by
    rw [clamped, if_neg (Int.natCast_nonneg i).not_gt]
    omega
  rcases Nat.le_total p (pow2 53) with hsmall | hlarge
  · rw [clampPlace_of_toInt? (Binary64.toInt?_ofNat hsmall), hclamped]
  · rw [Nat.min_eq_right (h.le.trans hlarge)]
    rcases Binary64.ofNat_large hlarge with hinf | ⟨i, hi, hle⟩
    · rw [hinf]
      rfl
    · rw [clampPlace_of_toInt? hi, hclamped, Nat.min_eq_right (h.le.trans hle)]

theorem placeArgument_natural (h : length < pow2 53) (p : Nat) :
    placeArgument length missing (some (.int p)) = .ok (min p length) := by
  have hplace : placeArgument length missing (some (.int p)) = .ok (clampPlace length (.ofNat p)) :=
    placeArgument_of_toNumber Value.noConfusion rfl
  rw [hplace, clampPlace_ofNat h]

/-- A cut at places beyond the end is one at the end. -/
theorem drop_take_min {α : Type} (xs : List α) (p q : Nat) :
    (xs.take (min q xs.length)).drop (min p xs.length) = (xs.take q).drop p := by
  rw [← List.take_eq_take_min]
  rcases Nat.le_total p xs.length with hinside | hbeyond
  · rw [Nat.min_eq_left hinside]
  · have hshort := List.length_take_le' q xs
    rw [Nat.min_eq_right hbeyond, List.drop_eq_nil_of_le hshort,
      List.drop_eq_nil_of_le (hshort.trans hbeyond)]

theorem slice_eq (h : s.toList.length < pow2 53) (p q : Nat) :
    call (.string s) (.string "slice") [.int p, .int q] =
      .ok (.string (String.ofList ((s.toList.take q).drop p))) := by
  have hslice : sliceOf s.toList [.int p, .int q] = .ok ((s.toList.take q).drop p) := by
    rw [sliceOf_eq (placeArgument_natural h p) (placeArgument_natural h q), drop_take_min]
  rw [call_string (by decide)]
  simp only [callString, hslice]
  rfl

theorem indexOf_eq (s t : String) :
    call (.string s) (.string "indexOf") [.string t] =
      placeValue (Text.firstPlace? t.toList s.toList) := by
  rw [call_string (by decide), ← Text.find?_eq_firstPlace?, ← Text.search?_eq_find?]
  rfl

/-- The slice at `p` that is as long as `t` is `t`. -/
def StandsAt (s t : String) (p : Nat) : Prop :=
  call (.string s) (.string "slice") [.int p, .int (p + t.toList.length : Nat)] = .ok (.string t)

theorem standsAt_iff (h : s.toList.length < pow2 53) :
    StandsAt s t p ↔ t.toList <+: s.toList.drop p := by
  rw [StandsAt, slice_eq h, List.drop_take, Nat.add_sub_cancel_left, List.prefix_iff_eq_take]
  simp only [Except.ok.injEq, Value.string.injEq, ← String.toList_inj, String.toList_ofList]
  exact eq_comm

theorem property_length (h : s.toList.length < pow2 53) :
    property (.string s) (.string "length") = .ok (.int s.toList.length) :=
  ofCount_eq h.le

/-- A natural reads the character at its place, or null beyond the end. -/
theorem property_natural (s : String) (p : Nat) : property (.string s) (.int p) =
    .ok ((s.toList[p]?.map fun c => .string (String.singleton c)).getD .null) := by
  have hname : (Value.int p).plainText ≠ "length" := by
    intro hname
    have hplace : natural? (Value.int p).plainText.toList = _ := natural?_int p
    rw [hname, if_pos (Int.natCast_nonneg p)] at hplace
    cases hplace
  exact if_neg hname

theorem includes_eq (s t : String) : call (.string s) (.string "includes") [.string t] =
    .ok (.bool (Text.firstPlace? t.toList s.toList).isSome) := by
  rw [call_string (by decide), ← Text.find?_eq_firstPlace?, ← Text.search?_eq_find?]
  rfl

theorem startsWith_eq (s t : String) : call (.string s) (.string "startsWith") [.string t] =
    .ok (.bool (t.toList.isPrefixOf s.toList)) :=
  call_string (by decide)

theorem endsWith_eq (s t : String) : call (.string s) (.string "endsWith") [.string t] =
    .ok (.bool (t.toList.isSuffixOf s.toList)) :=
  call_string (by decide)

/-- A search gives the first place, or minus one. -/
theorem indexOf_cases (h : s.toList.length < pow2 53) (t : String) :
    (∃ i : Nat, Text.firstPlace? t.toList s.toList = some i ∧
      call (.string s) (.string "indexOf") [.string t] = .ok (.int i)) ∨
    (Text.firstPlace? t.toList s.toList = none ∧
      call (.string s) (.string "indexOf") [.string t] = .ok (.int (-1))) := by
  rw [indexOf_eq]
  cases hfirst : Text.firstPlace? t.toList s.toList with
  | some i =>
    have hi := (Text.firstPlace?_eq_some_iff.1 hfirst).1
    exact .inl ⟨i, rfl, ofCount_eq (hi.trans h.le)⟩
  | none => exact .inr ⟨rfl, rfl⟩

theorem indexOf_eq_zero_iff (h : s.toList.length < pow2 53) :
    call (.string s) (.string "indexOf") [.string t] = .ok (.int 0) ↔
      t.toList <+: s.toList := by
  have hzero : Text.firstPlace? t.toList s.toList = some 0 ↔ t.toList <+: s.toList := by
    simp [Text.firstPlace?_eq_some_iff]
  rw [← hzero]
  rcases indexOf_cases h t with ⟨i, hfirst, hcall⟩ | ⟨hfirst, hcall⟩
  · simp [hfirst, hcall, Value.int]
  · simp [hfirst, hcall, Value.int]

theorem endsWith_iff (h : s.toList.length < pow2 53) :
    t.toList <:+ s.toList ↔ ∃ (p : Nat) (u : String),
      call (.string s) (.string "slice") [.int 0, .int p] = .ok (.string u) ∧ u ++ t = s := by
  constructor
  · rintro ⟨before, hbefore⟩
    refine ⟨before.length, String.ofList before, (slice_eq h 0 before.length).trans ?_, ?_⟩
    · rw [← hbefore, List.take_left, List.drop_zero]
    · rw [← String.toList_inj, String.toList_append, String.toList_ofList, hbefore]
  · rintro ⟨p, u, -, rfl⟩
    exact ⟨u.toList, String.toList_append.symm⟩

/-- What is said of the positions of `t` in `s` by searches, by slices and by reading single places. -/
structure PositionsAgree (s t : String) : Prop where
  length : property (.string s) (.string "length") = .ok (.int s.toList.length)
  /-- A search finds the first place where a slice of `s` is `t`, if there is one. -/
  indexOf :
    (∃ i : Nat, call (.string s) (.string "indexOf") [.string t] = .ok (.int i) ∧
      StandsAt s t i ∧ ∀ j < i, ¬ StandsAt s t j) ∨
    (call (.string s) (.string "indexOf") [.string t] = .ok (.int (-1)) ∧
      ∀ p, ¬ StandsAt s t p)
  includes : ∃ b, call (.string s) (.string "includes") [.string t] = .ok (.bool b) ∧
    (b = true ↔ call (.string s) (.string "indexOf") [.string t] ≠ .ok (.int (-1)))
  startsWith : ∃ b, call (.string s) (.string "startsWith") [.string t] = .ok (.bool b) ∧
    (b = true ↔ call (.string s) (.string "indexOf") [.string t] = .ok (.int 0))
  endsWith : ∃ b, call (.string s) (.string "endsWith") [.string t] = .ok (.bool b) ∧
    (b = true ↔ ∃ (p : Nat) (u : String),
      call (.string s) (.string "slice") [.int 0, .int p] = .ok (.string u) ∧ u ++ t = s)
  /-- A place within `s` reads as the slice of one character there. -/
  within : ∀ p < s.toList.length, ∃ u, property (.string s) (.int p) = .ok (.string u) ∧
    call (.string s) (.string "slice") [.int p, .int (p + 1 : Nat)] = .ok (.string u)
  beyond : ∀ p ≥ s.toList.length, property (.string s) (.int p) = .ok .null
  /-- The searches can be made with the bytes of the strings. -/
  byBytes : ∃ found, Checked.indexOf t.toList s.toList = .ok found ∧
    call (.string s) (.string "indexOf") [.string t] = placeValue found ∧
    call (.string s) (.string "includes") [.string t] = .ok (.bool found.isSome) ∧
    call (.string s) (.string "startsWith") [.string t] =
      .ok (.bool ((Text.bytes t.toList).isPrefixOf (Text.bytes s.toList))) ∧
    call (.string s) (.string "endsWith") [.string t] =
      .ok (.bool ((Text.bytes t.toList).isSuffixOf (Text.bytes s.toList)))

/--
In a string of fewer than `2 ^ 53` characters a search finds the first place where a slice is the
other string, and minus one only if there is none; a slice of one character is what is read at its
place. All of them count characters, though the searches can be made with bytes.
-/
theorem positions_agree (h : s.toList.length < pow2 53) (t : String) : PositionsAgree s t where
  length := property_length h
  indexOf := by
    simp only [standsAt_iff h]
    rcases indexOf_cases h t with ⟨i, hfirst, hcall⟩ | ⟨hfirst, hcall⟩
    · obtain ⟨-, hstands, hleast⟩ := Text.firstPlace?_eq_some_iff.1 hfirst
      exact .inl ⟨i, hcall, hstands, hleast⟩
    · exact .inr ⟨hcall, Text.firstPlace?_eq_none_iff.1 hfirst⟩
  includes := by
    refine ⟨_, includes_eq s t, ?_⟩
    rcases indexOf_cases h t with ⟨i, hfirst, hcall⟩ | ⟨hfirst, hcall⟩
    · simp [hfirst, hcall, Value.int]
    · simp [hfirst, hcall]
  startsWith := by
    refine ⟨_, startsWith_eq s t, ?_⟩
    rw [indexOf_eq_zero_iff h, List.isPrefixOf_iff_prefix]
  endsWith := by
    refine ⟨_, endsWith_eq s t, ?_⟩
    rw [List.isSuffixOf_iff_suffix, endsWith_iff h]
  within := by
    intro p hp
    refine ⟨String.singleton s.toList[p], ?_, ?_⟩
    · rw [property_natural, List.getElem?_eq_getElem hp]
      rfl
    · rw [slice_eq h, List.drop_take, Nat.add_sub_cancel_left, List.drop_eq_getElem_cons hp]
      rfl
  beyond := by
    intro p hp
    rw [property_natural, List.getElem?_eq_none hp]
    rfl
  byBytes := by
    refine ⟨_, Checked.indexOf_eq _ _, ?_⟩
    rw [Text.search?_eq_find?, Text.find?_eq_firstPlace?, Text.isPrefixOf_bytes,
      Text.isSuffixOf_bytes]
    exact ⟨indexOf_eq s t, includes_eq s t, startsWith_eq s t, endsWith_eq s t⟩

/-- The second character is found at place one, though two bytes stand in front of it. -/
theorem positions_agree_sample :
    "éàéà".toList.length < pow2 53 ∧
    call (.string "éàéà") (.string "indexOf") [.string "àé"] = .ok (.int 1) ∧
    StandsAt "éàéà" "àé" 1 ∧
    ∃ u, property (.string "éàéà") (.int 1) = .ok (.string u) ∧
      call (.string "éàéà") (.string "slice") [.int 1, .int 2] = .ok (.string u) := by
  have h : "éàéà".toList.length < pow2 53 := by decide
  have hagree := positions_agree h "àé"
  obtain ⟨found, hfound, hcall, -⟩ := hagree.byBytes
  obtain rfl : some 1 = found := Except.ok.inj hfound
  have hone : call (.string "éàéà") (.string "indexOf") [.string "àé"] = .ok (.int 1) :=
    hcall.trans (ofCount_eq (by decide))
  refine ⟨h, hone, ?_, hagree.within 1 (by decide)⟩
  rcases hagree.indexOf with ⟨i, hi, hstands, -⟩ | ⟨hnone, -⟩
  · rw [hone] at hi
    have hplace : (1 : Int) = i := by simpa [Value.int] using hi
    obtain rfl : 1 = i := by omega
    exact hstands
  · rw [hone] at hnone
    simp [Value.int] at hnone

end SigilExpr.Value
