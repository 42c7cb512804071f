import SigilExpr.Proofs.Decimal.Plain
import SigilExpr.Proofs.Value.Text
import SigilExpr.Value.Equality
import SigilExpr.Value.Property

/-!
# Keys and their texts

A property is read under the text of its key, but an array and a string look at a number first: an
integer names the place that its digits name, and a double names no place. So a key is as good as
its text unless it is a double that is equal to a natural. Such a double does NOT read the element
that the same natural reads as an integer or as a text.
-/

set_option autoImplicit false

namespace SigilExpr

open Decimal

namespace Value

variable {cs : List Char}

theorem natural?_eq_none_of_mem {c : Char} (hc : c ∈ cs) (hdigit : c.isDigit = false)
    (hplus : c ≠ '+') : natural? cs = none := by
  have hnone {ds : List Char} (hc : c ∈ ds) : natural?.digits? ds = none := by
    have hall : ds.all Char.isDigit = false := List.all_eq_false.2 ⟨c, hc, by simp [hdigit]⟩
    simp [natural?.digits?, hall]
  unfold natural?
  split
  · next ds =>
    exact hnone ((List.mem_cons.1 hc).resolve_left hplus)
  · exact hnone hc

theorem natural?_toDigits (n : Nat) : natural? (Nat.toDigits 10 n) = some n := by
  have hall : (Nat.toDigits 10 n).all Char.isDigit = true :=
    List.all_eq_true.2 isDigit_of_mem_toDigits
  have hne : (Nat.toDigits 10 n).isEmpty = false :=
    List.isEmpty_eq_false_iff.2 Nat.toDigits_ne_nil
  unfold natural?
  split
  · next ds heq =>
    have hplus := isDigit_of_mem_toDigits (n := n) '+' (heq ▸ List.mem_cons_self)
    cases hplus
  · simp [natural?.digits?, hall, hne, ofDigits_toDigits]

/-- The place that an integer names is the one that its digits name. -/
theorem natural?_int (n : Int) :
    natural? (Number.int n).plainText.toList = if 0 ≤ n then some n.toNat else none := by
  cases n with
  | ofNat n =>
    have htext : (Number.int (Int.ofNat n)).plainText = String.ofList (Nat.toDigits 10 n) :=
      Nat.toString_eq_ofList_toDigits
    rw [htext, String.toList_ofList, natural?_toDigits]
    simp
  | negSucc n =>
    have htext : (Number.int (Int.negSucc n)).plainText = "-" ++ Nat.repr (n + 1) := rfl
    have hsign : '-' ∈ (Number.int (Int.negSucc n)).plainText.toList := by simp [htext]
    rw [natural?_eq_none_of_mem hsign rfl (by decide)]
    simp

theorem toInt?_eq_none_iff {m : Nat} {e : Int} :
    (Binary64.finite false m e).toInt? = none ↔ ¬ Integral m e := by
  simp [Binary64.toInt?, Integral]

theorem toInt?_eq_some_iff {m : Nat} {e k : Int} :
    (Binary64.finite false m e).toInt? = some k ↔
      Integral m e ∧ ((m * pow2 e.toNat / pow2 (-e).toNat : Nat) : Int) = k := by
  simp [Binary64.toInt?, Integral, Binary64.signed]

theorem plainText_float (x : Binary64) :
    (Number.float x).plainText = fixed 0 x ∨ (Number.float x).plainText = Layout.plain.write x := by
  rw [Number.plainText.eq_2]
  split
  · split
    · exact .inl rfl
    · exact .inr rfl
  · exact .inr rfl

/-- A double that is no natural has more than digits in its text. -/
theorem exists_mem_plainText {x : Binary64} (hx : x.Canonical)
    (h : x.isNegative = true ∨ x.toInt? = none) :
    ∃ c ∈ (Number.float x).plainText.toList, c.isDigit = false ∧ c ≠ '+' := by
  rcases x with _ | negative | ⟨_ | _, m, e⟩
  · exact ⟨'N', by decide, rfl, by decide⟩
  · exact ⟨'i', by cases negative <;> decide, rfl, by decide⟩
  · have hnone : (Binary64.finite false m e).toInt? = none :=
      h.resolve_left (by simp [Binary64.isNegative])
    refine ⟨'.', ?_, rfl, by decide⟩
    rw [Number.plainText, hnone]
    exact point_mem_write hx (toInt?_eq_none_iff.1 hnone)
  · refine ⟨'-', ?_, rfl, by decide⟩
    rcases plainText_float (.finite true m e) with htext | htext
    · exact htext ▸ sign_mem_fixed 0 m e
    · exact htext ▸ sign_mem_write .plain m e

/-- A double that is equal to a natural is written like it, up to a size. -/
theorem plainText_of_toInt? {x : Binary64} {n : Nat} (hx : x.isNegative = false)
    (h : x.toInt? = some (n : Int)) (hn : n < pow10 21) :
    (Number.float x).plainText = (Number.int n).plainText := by
  rcases x with _ | negative | ⟨negative, m, e⟩
  · cases h
  · cases h
  · obtain rfl : negative = false := hx
    obtain ⟨hintegral, hvalue⟩ := toInt?_eq_some_iff.1 h
    have htext : (Number.float (.finite false m e)).plainText = fixed 0 (.finite false m e) := by
      simp [Number.plainText, h, hn]
    have hint : (Number.int n).plainText = String.ofList (Nat.toDigits 10 n) :=
      Nat.toString_eq_ofList_toDigits
    rw [htext, hint, ← String.toList_inj, fixed_of_integral hintegral, Int.ofNat.inj hvalue,
      String.toList_ofList]

/-- The natural that a double is equal to, unless it has a sign. -/
def doublePlace? : Value → Option Nat
  | .number (.float x) => if x.isNegative then none else x.toInt?.map Int.toNat
  | _ => none

/-- The place that a key names is the one that its text names. -/
theorem place?_string_plainText {k : Value} (hx : ∀ x, k = .number (.float x) → x.Canonical)
    (hk : k.doublePlace? = none) : place? (.string k.plainText) = place? k := by
  cases k with
  | null | bool b | string s | array items | object fields => rfl
  | number n =>
    cases n with
    | int n => exact natural?_int n
    | float x =>
      have hsign : x.isNegative = true ∨ x.toInt? = none := by
        by_cases hneg : x.isNegative = true
        · exact .inl hneg
        · exact .inr (by simpa [doublePlace?, hneg] using hk)
      obtain ⟨c, hc, hdigit, hplus⟩ := exists_mem_plainText (hx x rfl) hsign
      exact natural?_eq_none_of_mem hc hdigit hplus

/-- A key is looked at for its text and for the place that it names. -/
theorem property_congr {k l : Value} (htext : k.plainText = l.plainText)
    (hplace : place? k = place? l) (o : Value) : o.property k = o.property l := by
  simp only [property, htext, hplace]

/-- A double without a fraction has a digit in its text. -/
theorem exists_digit_plainText {x : Binary64} {k : Int} (hx : x.Canonical)
    (hsign : x.isNegative = false) (h : x.toInt? = some k) :
    ∃ c ∈ (Number.float x).plainText.toList, c.isDigit = true := by
  rcases x with _ | negative | ⟨negative, m, e⟩
  · cases h
  · cases h
  · obtain rfl : negative = false := hsign
    obtain ⟨hintegral, -⟩ := toInt?_eq_some_iff.1 h
    rcases plainText_float (.finite false m e) with htext | htext
    · obtain ⟨d, ds, hdigits⟩ := List.exists_cons_of_ne_nil
        (Nat.toDigits_ne_nil (n := m * pow2 e.toNat / pow2 (-e).toNat) (b := 10))
      have hd := hdigits ▸ List.mem_cons_self (a := d) (l := ds)
      rw [htext, fixed_of_integral hintegral]
      exact ⟨d, hd, isDigit_of_mem_toDigits d hd⟩
    · exact htext ▸ digit_mem_write hx

theorem plainText_ne_length {x : Binary64} {k : Int} (hx : x.Canonical)
    (hsign : x.isNegative = false) (h : x.toInt? = some k) :
    (Number.float x).plainText ≠ "length" := by
  obtain ⟨c, hc, hdigit⟩ := exists_digit_plainText hx hsign h
  have hletters : "length".toList.all (!·.isDigit) = true := rfl
  intro htext
  rw [htext] at hc
  simpa [hdigit] using List.all_eq_true.1 hletters c hc

theorem doublePlace?_eq_some_iff {k : Value} {n : Nat} :
    k.doublePlace? = some n ↔
      ∃ x : Binary64, k = .number (.float x) ∧ x.isNegative = false ∧
        x.toInt? = some (n : Int) := by
  constructor
  · intro h
    rcases k with _ | b | (i | x) | s | items | fields
    case number.float =>
      cases hsign : x.isNegative with
      | true => simp [doublePlace?, hsign] at h
      | false =>
        simp only [doublePlace?, hsign, Bool.false_eq_true, if_false, Option.map_eq_some_iff] at h
        obtain ⟨k, hk, rfl⟩ := h
        have hnonneg := (Number.nonneg_of_toInt? hsign hk).2
        exact ⟨x, rfl, hsign, by rw [hk, Int.toNat_of_nonneg hnonneg]⟩
    all_goals cases h
  · rintro ⟨x, rfl, hsign, hint⟩
    simp [doublePlace?, hsign, hint]

/-- A key is as good as its text unless it is a double that is equal to a natural. Such a key has
nothing on an array or a string, though its text is that of the natural and names its place. -/
theorem property_by_text (k : Value) (hx : ∀ x, k = .number (.float x) → x.Canonical) :
    (k.doublePlace? = none → ∀ o : Value, o.property k = o.property (.string k.plainText)) ∧
    ∀ n, k.doublePlace? = some n →
      (∀ fields, (Value.object fields).property k =
        (Value.object fields).property (.string k.plainText)) ∧
      (∀ o : Value, o.kind = .array ∨ o.kind = .string → o.property k = .ok .null) ∧
      (n < pow10 21 → ∀ o : Value, o.property (.string k.plainText) = o.property (.int n)) := by
  refine ⟨fun hk o => ?_, ?_⟩
  · exact (property_congr (k := .string k.plainText) (l := k) rfl
      (place?_string_plainText hx hk) o).symm
  · intro n hn
    obtain ⟨x, rfl, hsign, hint⟩ := doublePlace?_eq_some_iff.1 hn
    refine ⟨fun fields => rfl, ?_, ?_⟩
    · have hlength : (Value.number (.float x)).plainText ≠ "length" :=
        plainText_ne_length (hx x rfl) hsign hint
      intro o ho
      cases o with
      | array items | string s => simp [property, hlength, place?]
      | null | bool b | number m | object fields => simp [kind] at ho
    · intro hbound o
      have htext : (Value.number (.float x)).plainText = (Value.int n).plainText :=
        plainText_of_toInt? hsign hint hbound
      rw [htext]
      have hplace : place? (.string (Value.int n).plainText) = place? (.int n) :=
        place?_string_plainText (fun _ h => by cases h) rfl
      exact property_congr (k := .string (Value.int n).plainText) (l := .int n) rfl hplace o

/-- Minus zero names no place, and neither does its text; one has a place in its text only. -/
theorem property_by_text_sample :
    property (.array [.int 10, .int 20]) (.number (.float (.signedZero true))) =
      property (.array [.int 10, .int 20]) (.string "-0") ∧
    property (.string "ab") (.number (.float (.ofNat 1))) = .ok .null ∧
    property (.string "ab") (.string "1") = property (.string "ab") (.int 1) := by
  have hzero : (Binary64.signedZero true).Canonical := ⟨pow2_pos 53, le_rfl, by decide, .inr rfl⟩
  have hone : (Binary64.ofNat 1).Canonical := (Binary64.unsigned_ofNat 1).1
  have htext : (Number.float (.signedZero true)).plainText = "-0" := by decide +kernel
  have htext' : (Number.float (.ofNat 1)).plainText = "1" := by decide +kernel
  obtain ⟨hnone, -⟩ := property_by_text (.number (.float (.signedZero true)))
    (by rintro _ ⟨⟩; exact hzero)
  obtain ⟨-, hsome⟩ := property_by_text (.number (.float (.ofNat 1)))
    (by rintro _ ⟨⟩; exact hone)
  obtain ⟨-, hnull, hnamed⟩ := hsome 1 (by decide +kernel)
  refine ⟨?_, hnull _ (.inr rfl), ?_⟩
  · exact htext ▸ hnone (by decide +kernel) (.array [.int 10, .int 20])
  · exact htext' ▸ hnamed (by decide +kernel) (.string "ab")

/-- One as a double has the text of the integer, and yet it does not read what the integer reads. -/
theorem double_key_reads_nothing :
    (Value.number (.float (.ofNat 1))).plainText = (Value.int 1).plainText ∧
    strictEquals (.number (.float (.ofNat 1))) (.int 1) = true ∧
    property (.array [.int 10, .int 20]) (.string "1") = .ok (.int 20) ∧
    property (.array [.int 10, .int 20]) (.int 1) = .ok (.int 20) ∧
    property (.array [.int 10, .int 20]) (.number (.float (.ofNat 1))) = .ok .null ∧
    ¬ ∀ o k : Value, o.property k = o.property (.string k.plainText) := by
  have htext : (Value.number (.float (.ofNat 1))).plainText = "1" := by decide +kernel
  have hnamed : property (.array [.int 10, .int 20]) (.string "1") = .ok (.int 20) := rfl
  have hnull : property (.array [.int 10, .int 20]) (.number (.float (.ofNat 1))) = .ok .null := by
    simp [property, htext, place?]
  refine ⟨htext, by decide +kernel, hnamed, rfl, hnull, ?_⟩
  intro hall
  have hsame := hall (.array [.int 10, .int 20]) (.number (.float (.ofNat 1)))
  rw [hnull, htext, hnamed] at hsame
  cases hsame

end Value

end SigilExpr
