import SigilExpr.Proofs.Binary64.Digitwise
import SigilExpr.Proofs.Decimal.Numeral
import SigilExpr.Proofs.Token.Delimited
import SigilExpr.Proofs.Token.Pieces

/-!
# One number in two notations

A natural can be written with decimal or with hexadecimal digits. In decimal digits it is read as the
double nearest to it, and so it is in hexadecimal digits, of either case and with any zeros before
them, if it has at most 64 bits. Beyond that it is rounded after every digit, which gives the same
double but for naturals right above a tie: they are read as if they were the tie itself.
-/

set_option autoImplicit false

namespace SigilExpr

open Text

namespace NumberLiteral

variable {ds : List Char} {n : Nat}

theorem foldl_pushDigit (ds : List Char) (x : Binary64) :
    ds.foldl (fun x c => (x.mul (.ofNat 16)).add (.ofNat (hexValue c))) x =
      (ds.map hexValue).foldl Binary64.pushDigit x := by
  rw [List.foldl_map]
  rfl

theorem ofHexDigits_eq_foldl (ds : List Char) :
    ofHexDigits ds = (ds.map hexValue).foldl (16 * · + ·) 0 := by
  rw [List.foldl_map]
  rfl

/-- Up to 64 bits a hexadecimal numeral is rounded once. -/
theorem hexNumber_of_lt (h : HexNumeral ds n) (hn : n < pow2 64) : hexNumber ds = .ofNat n := by
  obtain ⟨-, rfl⟩ := hexNumeral_iff.1 h
  exact if_pos hn

/-- Beyond 64 bits a hexadecimal numeral is read with zeros for the digits that come too late. -/
theorem hexNumber_of_le (h : HexNumeral ds n) (hn : pow2 64 ≤ n) :
    ∃ k, Binary64.Fills n k ∧ pow2 53 ≤ n / 16 ^ k ∧ hexNumber ds = .ofNat (n / 16 ^ k * 16 ^ k) := by
  obtain ⟨hds, rfl⟩ := hexNumeral_iff.1 h
  have hvalues : ∀ d ∈ ds.map hexValue, d < 16 := by
    intro d hd
    obtain ⟨c, hc, rfl⟩ := List.mem_map.1 hd
    exact (hexDigit_of_isHexDigit (hds c hc)).1
  obtain ⟨k, hk, hpush⟩ := Binary64.fills_zero.pushDigits hvalues
  rw [Nat.zero_div, Nat.zero_mul, ← foldl_pushDigit, ← ofHexDigits_eq_foldl] at hpush
  rw [← ofHexDigits_eq_foldl] at hk
  refine ⟨k, hk, ?_, (if_neg (Nat.not_lt.2 hn)).trans hpush⟩
  rcases hk.2 with rfl | hlow
  · rw [pow_zero, Nat.div_one]
    exact (pow2_le_pow2 (by decide)).trans hn
  · exact hlow

theorem denotes_hex {m : Char} (hm : m = 'x' ∨ m = 'X') (hne : ds ≠ []) (h : HexNumeral ds n) :
    Denotes ('0' :: m :: ds) (hexNumber ds) := by
  refine ⟨rfl, ?_⟩
  have hscan := scan_hex (r := []) hm hne (hexNumeral_iff.1 h).1 (fun _ hc => by cases hc) 0
  rwa [List.append_nil] at hscan

theorem nearest_zero (n : Nat) : Decimal.nearest false n 0 = .ofNat n := by
  rcases Nat.eq_zero_or_pos n with rfl | hn
  · rfl
  · simp [Decimal.nearest, hn.ne', Binary64.ofNat]

/-- A row of decimal digits is read as the double nearest to the natural that it spells. -/
theorem denotes_digits (hne : ds ≠ []) (hds : ∀ c ∈ ds, c.isDigit = true) :
    Denotes ds (.ofNat (Decimal.ofDigits ds)) := by
  have htake : ds.takeWhile Char.isDigit = ds := List.takeWhile_eq_self_iff.2 hds
  have hdrop : ds.dropWhile Char.isDigit = [] := List.dropWhile_eq_nil_iff.2 hds
  have hvalue : Decimal.unsigned? false ds = some (.ofNat (Decimal.ofDigits ds)) := by
    have hsplit : Decimal.split ds = (ds, [], []) := by simp only [Decimal.split, htake, hdrop]
    have hempty : ds.isEmpty = false := List.isEmpty_eq_false_iff.2 hne
    simp [Decimal.unsigned?, hsplit, hempty, nearest_zero]
  have htext : decimalText ds = ds := by
    have hwhole := decimalText_whole (u := ds) (r := []) (by rwa [List.append_nil])
      (by rwa [List.append_nil]) (fun _ hc => by cases hc)
    rwa [List.append_nil, show powerText [] = [] from rfl, List.append_nil] at hwhole
  have hhex : beginsHex ds = false := by
    by_contra hhex
    obtain ⟨m, rest, rfl, hm⟩ := exists_of_beginsHex (by simpa using hhex)
    have hdigit := hds m (by simp)
    rcases hm with rfl | rfl <;> cases hdigit
  obtain ⟨c, rest, rfl⟩ := List.exists_cons_of_ne_nil hne
  refine ⟨?_, ?_⟩
  · have hc := hds c List.mem_cons_self
    rw [begins_cons (by rintro rfl; cases hc), hc]
  · have hscan := scan_decimal (w := c :: rest) (r := []) (by rwa [List.append_nil])
      (by rwa [List.append_nil]) hvalue (fun _ hc => by cases hc) 0
    rwa [List.append_nil] at hscan

end NumberLiteral

namespace Token

open NumberLiteral

/-- The tokens of a text that is one number. -/
def loneNumber (x : Binary64) (length : Nat) : List Token :=
  [⟨.number x, ⟨0, length⟩⟩, endAt length]

theorem ofSource_of_denotes {w : List Char} {x : Binary64} (h : Denotes w x) :
    ofSource w = .ok (loneNumber x (byteLength w)) := by
  have hscan := Lexeme.scan_number (r := []) h (fun _ hc => by cases hc) 0
  have hrow : Row 0 (w ++ []) [] [⟨.number x, ⟨0, 0 + byteLength w⟩⟩] :=
    .word h.ne_nil h.stops hscan .nil
  rw [List.append_nil, Nat.zero_add] at hrow
  exact ofSource_eq_ok_iff.2 ⟨_, rfl, hrow⟩

/-- A natural is the same number in hexadecimal and in decimal digits, the double nearest to it,
unless it has more than 64 bits and is above a tie; then its hexadecimal digits are read with zeros
for those that come too late. -/
theorem hexadecimal_agrees_off_ties {n : Nat} {m : Char} {ds : List Char} (hm : m = 'x' ∨ m = 'X')
    (hne : ds ≠ []) (hds : HexNumeral ds n) :
    ofSource (Nat.toDigits 10 n) =
      .ok (loneNumber (.ofNat n) (byteLength (Nat.toDigits 10 n))) ∧
    ∃ x, ofSource ('0' :: m :: ds) = .ok (loneNumber x (byteLength ('0' :: m :: ds))) ∧
      (x = .ofNat n ↔ ¬ (pow2 64 ≤ n ∧ n < pow2 1024 ∧ Binary64.AboveTie n)) ∧
      (pow2 64 ≤ n → ∃ k, pow2 53 ≤ n / 16 ^ k ∧ n / 16 ^ (k + 1) < pow2 53 ∧
        x = .ofNat (n / 16 ^ k * 16 ^ k)) := by
  have hdecimal := denotes_digits Nat.toDigits_ne_nil (Decimal.isDigit_of_mem_toDigits (n := n))
  rw [Decimal.ofDigits_toDigits] at hdecimal
  refine ⟨ofSource_of_denotes hdecimal, hexNumber ds,
    ofSource_of_denotes (denotes_hex hm hne hds), ?_⟩
  rcases Nat.lt_or_ge n (pow2 64) with hn | hn
  · have hlt : ¬ pow2 64 ≤ n := Nat.not_le.2 hn
    simp [hexNumber_of_lt hds hn, hlt]
  · obtain ⟨k, hk, hlow, hx⟩ := hexNumber_of_le hds hn
    refine ⟨?_, fun _ => ⟨k, hlow, hk.1, hx⟩⟩
    rw [hx, hk.ofNat_eq_iff hlow, and_iff_right hn]

/-- The digits up to the `8` are halfway between two doubles, and the `1` behind it is dropped. -/
theorem hexadecimal_agrees_off_ties_sample :
    HexNumeral "10000000000000810".toList 18446744073709553680 ∧
    ofSource "18446744073709553680".toList = .ok (loneNumber (.ofNat 18446744073709553680) 20) ∧
    ∃ x, ofSource "0X10000000000000810".toList = .ok (loneNumber x 19) ∧
      x ≠ .ofNat 18446744073709553680 := by
  have hds : HexNumeral "10000000000000810".toList 18446744073709553680 :=
    hexNumeral_iff.2 ⟨List.all_eq_true.1 (by decide), by decide⟩
  obtain ⟨hdecimal, x, hx, hagrees, -⟩ := hexadecimal_agrees_off_ties (.inr rfl) (by decide) hds
  refine ⟨hds, hdecimal, x, hx, ?_⟩
  have habove : Binary64.AboveTie 18446744073709553680 :=
    ⟨2, 3, pow2 53 + 1, by decide, by decide, by decide, by decide, by decide, by decide⟩
  have hbound : 18446744073709553680 < pow2 1024 :=
    calc 18446744073709553680 < pow2 65 := by decide
      _ < pow2 1024 := pow2_lt_pow2_iff.2 (by decide)
  rw [ne_eq, hagrees, not_not]
  exact ⟨by decide, hbound, habove⟩

/-- The hexadecimal numeral comes out one unit below the decimal one. -/
theorem hexadecimal_above_tie_goes_down :
    HexNumeral "10000000000000810".toList 18446744073709553680 ∧
    Nat.toDigits 10 18446744073709553680 = "18446744073709553680".toList ∧
    ofSource "0x10000000000000810".toList = .ok (loneNumber (.finite false (pow2 52) 12) 19) ∧
    ofSource "18446744073709553680".toList =
      .ok (loneNumber (.finite false (pow2 52 + 1) 12) 20) := by
  have hds : HexNumeral "10000000000000810".toList 18446744073709553680 :=
    hexNumeral_iff.2 ⟨List.all_eq_true.1 (by decide), by decide⟩
  have hhex := denotes_hex (.inl rfl) (by decide) hds
  have hdecimal : Denotes "18446744073709553680".toList
      (.ofNat (Decimal.ofDigits "18446744073709553680".toList)) :=
    denotes_digits (by decide) (List.all_eq_true.1 (by decide))
  rw [show hexNumber "10000000000000810".toList = .finite false (pow2 52) 12 by decide +kernel]
    at hhex
  rw [show Decimal.ofDigits "18446744073709553680".toList = 18446744073709553680 by decide +kernel,
    show Binary64.ofNat 18446744073709553680 = .finite false (pow2 52 + 1) 12 by decide +kernel]
    at hdecimal
  exact ⟨hds, by decide +kernel, ofSource_of_denotes hhex, ofSource_of_denotes hdecimal⟩

end Token

end SigilExpr
