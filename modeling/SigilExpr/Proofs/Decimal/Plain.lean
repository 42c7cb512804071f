import SigilExpr.Proofs.Decimal.Layout
import SigilExpr.Value.Text

/-!
# The plain text of a double

A double that is equal to a natural is written in plain text with the digits of that natural, up to
a size. Any other double has a point, a sign or a letter in its text: where the shortest digits are
those of a natural, the natural is around the double, and so equal to it.
-/

set_option autoImplicit false

namespace SigilExpr

namespace Decimal

open Binary64

variable {m n : Nat} {e : Int}

/-- The number `m·2^e` has no fraction. -/
def Integral (m : Nat) (e : Int) : Prop := m * pow2 e.toNat % pow2 (-e).toNat = 0

theorem integral_of_nonneg (m : Nat) (he : 0 ≤ e) : Integral m e := by
  have hzero : (-e).toNat = 0 := by omega
  rw [Integral, hzero, pow2_zero, Nat.mod_one]

/-- Half a unit is less than one, so that a natural around a number without a fraction is the
number, and none is around another number. -/
theorem Around.integral (h : Around m e n) : Integral m e := by
  rcases le_or_gt 0 e with he | he
  · exact integral_of_nonneg m he
  · have hunit : (e - 2).toNat = 0 := by omega
    have hdenominator : (2 - e).toNat = (-e).toNat + 2 := by omega
    have hpow : pow2 2 = 4 := rfl
    have hcontains : (Interval.around m e).contains n 1 = true :=
      (contains_around_iff Nat.one_pos).2 (by simpa using h)
    obtain ⟨hlow, hhigh, -⟩ := contains_iff _ |>.1 hcontains
    have hquarters := quartersBelow_le m e
    have hbelow : (Interval.around m e).low = 4 * m - quartersBelow m e := by
      simp [Interval.around, quartersBelow, hunit]
    have habove : (Interval.around m e).high = 4 * m + 2 := by
      simp [Interval.around, hunit]
    have hparts : (Interval.around m e).denominator = 4 * pow2 (-e).toNat := by
      simp [Interval.around, hdenominator, pow2_add, hpow, Nat.mul_comm]
    rw [hbelow, hparts, Nat.mul_one, Nat.mul_left_comm] at hlow
    rw [habove, hparts, Nat.mul_one, Nat.mul_left_comm] at hhigh
    have hexact : m = n * pow2 (-e).toNat := by omega
    have hwhole : e.toNat = 0 := by omega
    rw [Integral, hwhole, pow2_zero, Nat.mul_one, hexact, Nat.mul_mod_left]

theorem point_mem_place (l : Layout) {ds : List Char} {point : Int}
    (h : point ≤ 0 ∨ point.toNat < ds.length) : '.' ∈ l.place ds point := by
  unfold Layout.place
  split
  · simp
  · split
    · omega
    · simp

theorem subset_place (l : Layout) (ds : List Char) (point : Int) : ds ⊆ l.place ds point := by
  intro c hc
  unfold Layout.place
  split
  · exact List.mem_append_right _ hc
  · split
    · exact List.mem_append_left _ (List.mem_append_left _ hc)
    · rw [← List.take_append_drop point.toNat ds, List.mem_append] at hc
      simpa using hc.imp_right .inr

theorem positional_plain (x : Int) : Layout.plain.positional x = true := rfl

/-- A number with a fraction is written with a point. -/
theorem point_mem_write (h : (Binary64.finite false m e).Canonical)
    (hfraction : ¬ Integral m e) : '.' ∈ (Layout.plain.write (.finite false m e)).toList := by
  have hm : m ≠ 0 := by
    rintro rfl
    simp [Integral] at hfraction
  obtain ⟨ds, point, -, -, haround, htext⟩ := exists_digits .plain hm h
  rw [htext, if_pos (positional_plain _)]
  apply point_mem_place
  by_contra hwhole
  rw [not_or, not_le, not_lt] at hwhole
  obtain ⟨hpoint, hlength⟩ := hwhole
  -- without a point the digits and the zeros behind them spell a natural
  have hexponent : point - ds.length = ((point.toNat - ds.length : Nat) : Int) := by omega
  have hnatural : Around m e ((ofDigits ds * 10 ^ (point.toNat - ds.length) : Nat) : ℚ) := by
    rw [hexponent, zpow_natCast] at haround
    exact_mod_cast haround
  exact hfraction hnatural.integral

theorem digit_mem_write (h : (Binary64.finite false m e).Canonical) :
    ∃ c ∈ (Layout.plain.write (.finite false m e)).toList, c.isDigit = true := by
  by_cases hm : m = 0
  · exact ⟨'0', by simp [Layout.write, hm], rfl⟩
  · obtain ⟨ds, point, hne, hdigits, -, htext⟩ := exists_digits .plain hm h
    obtain ⟨d, rest, rfl⟩ := List.exists_cons_of_ne_nil hne
    rw [htext, if_pos (positional_plain _)]
    exact ⟨d, subset_place _ _ _ List.mem_cons_self, hdigits d List.mem_cons_self⟩

theorem sign_mem_write (l : Layout) (m : Nat) (e : Int) :
    '-' ∈ (l.write (.finite true m e)).toList := by
  simp [Layout.write]

theorem sign_mem_fixed (places m : Nat) (e : Int) :
    '-' ∈ (fixed places (.finite true m e)).toList := by
  simp [fixed]

theorem fixed_of_integral (h : Integral m e) :
    (fixed 0 (.finite false m e)).toList =
      Nat.toDigits 10 (m * pow2 e.toNat / pow2 (-e).toNat) := by
  have hne : Nat.toDigits 10 (m * pow2 e.toNat / pow2 (-e).toNat) ≠ [] := Nat.toDigits_ne_nil
  have hlength := List.length_pos_iff.2 hne
  have hzeros : 0 + 1 - (Nat.toDigits 10 (m * pow2 e.toNat / pow2 (-e).toNat)).length = 0 := by
    omega
  simp [fixed, pow10_zero, nearestEven_of_dvd (pow2_pos _) h, hzeros, zeros]

end Decimal

end SigilExpr
