import Mathlib.Data.List.Infix
import SigilExpr.Proofs.Text.Stretch
import SigilExpr.Text.Search

/-!
# First places, in characters and in bytes

A row stands at a place of another one if it is how the rest from there on begins. In the bytes of a
text the bytes of another one stand only where a character begins, because no byte that begins a
character stands within one. So the first place in bytes is the offset of the first place in
characters.
-/

set_option autoImplicit false

namespace SigilExpr.Text

section Places

variable {α : Type} [BEq α] {needle xs : List α} {i : Nat}

/-- The first place of `xs` at which `needle` stands. -/
def firstPlace? (needle xs : List α) : Option Nat := xs.tails.findIdx? (needle.isPrefixOf ·)

theorem firstPlace?_nil (xs : List α) : firstPlace? [] xs = some 0 := by
  cases xs <;> rfl

variable [LawfulBEq α]

theorem firstPlace?_eq_some_iff : firstPlace? needle xs = some i ↔
    i ≤ xs.length ∧ needle <+: xs.drop i ∧ ∀ j < i, ¬ needle <+: xs.drop j := by
  simp only [firstPlace?, List.findIdx?_eq_some_iff_getElem, List.length_tails, List.getElem_tails,
    List.isPrefixOf_iff_prefix, Nat.lt_succ_iff, exists_prop]

theorem firstPlace?_eq_none_iff :
    firstPlace? needle xs = none ↔ ∀ i, ¬ needle <+: xs.drop i := by
  simp only [firstPlace?, List.findIdx?_eq_none_iff, List.mem_tails, Bool.eq_false_iff, ne_eq,
    List.isPrefixOf_iff_prefix]
  constructor
  · intro h i
    exact h _ (List.drop_suffix i xs)
  · rintro h _ ⟨before, rfl⟩
    simpa using h before.length

end Places

variable {needle cs xs ys : List Char} {c : Char} {b : Nat}

theorem find?_eq_firstPlace? (needle cs : List Char) : find? needle cs = firstPlace? needle cs := by
  induction cs with
  | nil => cases needle <;> rfl
  | cons c cs ih =>
    rw [find?, ih, firstPlace?, firstPlace?, List.tails, List.findIdx?_cons]

/-- The bytes of a text. -/
def bytes (cs : List Char) : List UInt8 := cs.flatMap String.utf8EncodeChar

theorem bytes_cons (c : Char) (cs : List Char) :
    bytes (c :: cs) = String.utf8EncodeChar c ++ bytes cs := List.flatMap_cons

theorem bytes_append (xs ys : List Char) : bytes (xs ++ ys) = bytes xs ++ bytes ys :=
  List.flatMap_append

theorem length_bytes (cs : List Char) : (bytes cs).length = byteLength cs := by
  induction cs with
  | nil => rfl
  | cons c cs ih => rw [bytes_cons, List.length_append, ih, String.length_utf8EncodeChar,
      byteLength_cons]

/-- The bytes in front of which a text begins tell its first character. -/
theorem encode_append_inj {c d : Char} {us vs : List UInt8}
    (h : String.utf8EncodeChar c ++ us = String.utf8EncodeChar d ++ vs) : c = d ∧ us = vs := by
  have hread (c : Char) (us : List UInt8) :
      (String.utf8EncodeChar c ++ us).toByteArray.utf8DecodeChar? 0 = some c := by
    rw [List.toByteArray_append]
    exact ByteArray.utf8DecodeChar?_utf8EncodeChar_append
  obtain rfl : c = d := Option.some.inj ((hread c us).symm.trans (h ▸ hread d vs))
  exact ⟨rfl, List.append_cancel_left h⟩

theorem bytes_prefix_iff : bytes xs <+: bytes ys ↔ xs <+: ys := by
  constructor
  · intro h
    induction xs generalizing ys with
    | nil => exact List.nil_prefix
    | cons x xs ih =>
      obtain ⟨rest, hrest⟩ := h
      rw [bytes_cons, List.append_assoc] at hrest
      cases ys with
      | nil => exact absurd (List.append_eq_nil_iff.1 hrest).1 String.utf8EncodeChar_ne_nil
      | cons y ys =>
        obtain ⟨rfl, htail⟩ := encode_append_inj hrest
        exact (List.prefix_cons_inj x).2 (ih ⟨rest, htail⟩)
  · rintro ⟨rest, rfl⟩
    exact ⟨bytes rest, (bytes_append xs rest).symm⟩

/-- Bytes that begin a character do not stand within another one. -/
theorem not_prefix_within (hpos : 0 < b) (hb : b < (String.utf8EncodeChar c).length)
    (us : List UInt8) (hne : needle ≠ []) :
    ¬ bytes needle <+: (String.utf8EncodeChar c ++ us).drop b := by
  obtain ⟨d, ds, rfl⟩ := List.exists_cons_of_ne_nil hne
  rintro ⟨rest, hrest⟩
  have hd : 0 < (String.utf8EncodeChar d).length := by
    rw [String.length_utf8EncodeChar]
    exact d.utf8Size_pos
  have hfirst : (String.utf8EncodeChar d)[0] = (String.utf8EncodeChar c)[b] := by
    have hget := congrArg (·[0]?) hrest
    simp only [bytes_cons, List.append_assoc] at hget
    rw [List.getElem?_append_left hd, List.getElem?_drop, Nat.add_zero,
      List.getElem?_append_left hb, List.getElem?_eq_getElem hd, List.getElem?_eq_getElem hb] at hget
    exact Option.some.inj hget
  exact hpos.ne' (UInt8.isUTF8FirstByte_getElem_utf8EncodeChar.1
    (hfirst ▸ UInt8.isUTF8FirstByte_getElem_zero_utf8EncodeChar))

/-- Where the bytes of a text stand, the text stands. -/
theorem exists_boundary (hne : needle ≠ []) (h : bytes needle <+: (bytes cs).drop b) :
    ∃ before after, cs = before ++ after ∧ byteLength before = b ∧ needle <+: after := by
  induction cs generalizing b with
  | nil =>
    have hnil : (bytes []).drop b = bytes [] := List.drop_nil
    rw [hnil, bytes_prefix_iff, List.prefix_nil] at h
    exact absurd h hne
  | cons c cs ih =>
    rw [bytes_cons] at h
    rcases Nat.eq_zero_or_pos b with rfl | hpos
    · exact ⟨[], c :: cs, rfl, rfl, bytes_prefix_iff.1 h⟩
    · rcases Nat.lt_or_ge b (String.utf8EncodeChar c).length with hwithin | hbehind
      · exact absurd h (not_prefix_within hpos hwithin _ hne)
      · obtain ⟨k, rfl⟩ := Nat.exists_eq_add_of_le hbehind
        rw [List.drop_length_add_append] at h
        obtain ⟨before, after, rfl, rfl, hstands⟩ := ih h
        exact ⟨c :: before, after, rfl,
          by rw [byteLength_cons, String.length_utf8EncodeChar], hstands⟩

theorem bytes_suffix_iff : bytes xs <:+ bytes ys ↔ xs <:+ ys := by
  constructor
  · rintro ⟨front, hfront⟩
    by_cases hne : xs = []
    · exact hne ▸ List.nil_suffix
    · have hstands : bytes xs <+: (bytes ys).drop front.length := by
        rw [← hfront, List.drop_left]
      obtain ⟨before, after, rfl, hbefore, hprefix⟩ := exists_boundary hne hstands
      obtain ⟨rest, rfl⟩ := hprefix
      have hrest : byteLength rest = 0 := by
        have htotal := congrArg List.length hfront
        simp only [List.length_append, length_bytes, byteLength_append] at htotal
        omega
      obtain rfl : rest = [] := by
        by_contra hrest'
        exact (byteLength_pos hrest').ne' hrest
      exact ⟨before, by rw [List.append_nil]⟩
  · rintro ⟨before, rfl⟩
    exact ⟨bytes before, (bytes_append before xs).symm⟩

theorem isPrefixOf_bytes (xs ys : List Char) :
    (bytes xs).isPrefixOf (bytes ys) = xs.isPrefixOf ys := by
  rw [Bool.eq_iff_iff, List.isPrefixOf_iff_prefix, List.isPrefixOf_iff_prefix, bytes_prefix_iff]

theorem isSuffixOf_bytes (xs ys : List Char) :
    (bytes xs).isSuffixOf (bytes ys) = xs.isSuffixOf ys := by
  rw [Bool.eq_iff_iff, List.isSuffixOf_iff_suffix, List.isSuffixOf_iff_suffix, bytes_suffix_iff]

theorem drop_bytes (i : Nat) (cs : List Char) :
    (bytes cs).drop (byteLength (cs.take i)) = bytes (cs.drop i) := by
  conv_lhs => rw [← List.take_append_drop i cs, bytes_append]
  rw [List.take_append_drop, ← length_bytes, List.drop_left]

theorem byteLength_take_le (i : Nat) (cs : List Char) : byteLength (cs.take i) ≤ byteLength cs := by
  conv_rhs => rw [← List.take_append_drop i cs, byteLength_append]
  exact Nat.le_add_right _ _

/-- The first place in bytes is the offset of the first place in characters. -/
theorem firstPlace?_bytes (needle cs : List Char) :
    firstPlace? (bytes needle) (bytes cs) =
      (firstPlace? needle cs).map fun i => byteLength (cs.take i) := by
  cases hfirst : firstPlace? needle cs with
  | none =>
    have hne : needle ≠ [] := by
      rintro rfl
      rw [firstPlace?_nil] at hfirst
      cases hfirst
    rw [Option.map_none, firstPlace?_eq_none_iff]
    intro b hstands
    obtain ⟨before, after, rfl, -, hprefix⟩ := exists_boundary hne hstands
    exact firstPlace?_eq_none_iff.1 hfirst before.length (by rwa [List.drop_left])
  | some i =>
    obtain ⟨-, hprefix, hleast⟩ := firstPlace?_eq_some_iff.1 hfirst
    rw [Option.map_some, firstPlace?_eq_some_iff, length_bytes, drop_bytes, bytes_prefix_iff]
    refine ⟨byteLength_take_le i cs, hprefix, ?_⟩
    intro b hb hstands
    have hne : needle ≠ [] := by
      rintro rfl
      obtain rfl := Option.some.inj ((firstPlace?_nil cs).symm.trans hfirst)
      exact Nat.not_lt_zero b hb
    obtain ⟨before, after, rfl, rfl, hearlier⟩ := exists_boundary hne hstands
    -- A place that is not before the `i`-th character is not before its offset either.
    have hlt : before.length < i := by
      by_contra hle
      rw [List.take_append_of_le_length (not_lt.1 hle)] at hb
      exact hb.not_ge (byteLength_take_le i before)
    exact hleast _ hlt (by rwa [List.drop_left])

end SigilExpr.Text
