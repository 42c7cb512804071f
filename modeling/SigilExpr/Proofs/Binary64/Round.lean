import Mathlib.Algebra.Order.Field.Power
import Mathlib.Algebra.Order.Field.Rat
import Mathlib.Tactic.FieldSimp
import Mathlib.Tactic.Linarith
import Mathlib.Tactic.Positivity
import Mathlib.Tactic.Ring
import SigilExpr.Binary64.Arith

/-!
# What rounding gives

The quotient that is rounded is scaled so that its integer part fills the mantissa, or by the least
exponent where it is too small for that. So the result has the mantissa and exponent of its 64-bit
form, also where rounding up has made the mantissa too long by one unit.
-/

set_option autoImplicit false

namespace SigilExpr

theorem cast_pow2 (n : Nat) : (pow2 n : ℚ) = 2 ^ n := by
  simp [pow2]

theorem cast_pow10 (n : Nat) : (pow10 n : ℚ) = 10 ^ n := by
  simp [pow10]

theorem cast_pow2_pos (n : Nat) : (0 : ℚ) < pow2 n := Nat.cast_pos.2 (pow2_pos n)

theorem cast_pow10_pos (n : Nat) : (0 : ℚ) < pow10 n := Nat.cast_pos.2 (pow10_pos n)

/-- An exponent is split into a part above and a part below zero. -/
theorem pow_toNat_div (b : ℚ) (k : Int) : b ^ k.toNat / b ^ (-k).toNat = b ^ k := by
  obtain ⟨n, rfl | rfl⟩ := k.eq_nat_or_neg <;> simp

theorem pow2_div (k : Int) : (pow2 k.toNat : ℚ) / pow2 (-k).toNat = 2 ^ k := by
  rw [cast_pow2, cast_pow2, pow_toNat_div]

theorem pow10_div (k : Int) : (pow10 k.toNat : ℚ) / pow10 (-k).toNat = 10 ^ k := by
  rw [cast_pow10, cast_pow10, pow_toNat_div]

section Logarithm

variable {n d : Nat}

theorem zpow_log2_le (hn : 0 < n) : (2 : ℚ) ^ (n.log2 : Int) ≤ n := by
  rw [zpow_natCast]
  exact_mod_cast Nat.log2_self_le (Nat.ne_of_gt hn)

theorem lt_zpow_log2 (n : Nat) : (n : ℚ) < 2 ^ (n.log2 + 1 : Int) := by
  have h : (n : ℚ) < 2 ^ (n.log2 + 1) := by exact_mod_cast Nat.lt_log2_self (n := n)
  exact_mod_cast h

/-- A quotient is within a factor of two of the power of two that the lengths of its parts give. -/
theorem zpow_log2_sub (hn : 0 < n) (hd : 0 < d) :
    (2 : ℚ) ^ ((n.log2 : Int) - d.log2 - 1) ≤ n / d ∧
      (n / d : ℚ) < 2 ^ ((n.log2 : Int) - d.log2 + 1) := by
  have hd' : (0 : ℚ) < d := Nat.cast_pos.2 hd
  constructor
  · rw [le_div_iff₀ hd']
    calc (2 : ℚ) ^ ((n.log2 : Int) - d.log2 - 1) * d
        ≤ 2 ^ ((n.log2 : Int) - d.log2 - 1) * 2 ^ (d.log2 + 1 : Int) := by
          gcongr
          exact (lt_zpow_log2 d).le
      _ = 2 ^ (n.log2 : Int) := by
          rw [← zpow_add₀ two_ne_zero]
          congr 1
          omega
      _ ≤ n := zpow_log2_le hn
  · rw [div_lt_iff₀ hd']
    calc (n : ℚ) < 2 ^ (n.log2 + 1 : Int) := lt_zpow_log2 n
      _ = 2 ^ ((n.log2 : Int) - d.log2 + 1) * 2 ^ (d.log2 : Int) := by
          rw [← zpow_add₀ two_ne_zero]
          congr 1
          omega
      _ ≤ 2 ^ ((n.log2 : Int) - d.log2 + 1) * d := by
          gcongr
          exact zpow_log2_le hd

/-- A quotient in units of a power of two, compared without the quotient and the power. -/
theorem mul_pow2_lt_iff (hd : 0 < d) (c : Nat) (k : Int) :
    n * pow2 (-k).toNat < c * (d * pow2 k.toNat) ↔ (n / d : ℚ) < c * 2 ^ k := by
  have hd' : (0 : ℚ) < d := Nat.cast_pos.2 hd
  rw [Nat.mul_left_comm, Nat.mul_comm d, ← pow2_div, ← mul_div_assoc,
    div_lt_div_iff₀ hd' (cast_pow2_pos _)]
  exact_mod_cast Iff.rfl

theorem lt_mul_pow2_iff (hd : 0 < d) (c : Nat) (k : Int) :
    c * (d * pow2 k.toNat) < n * pow2 (-k).toNat ↔ c * 2 ^ k < (n / d : ℚ) := by
  have hd' : (0 : ℚ) < d := Nat.cast_pos.2 hd
  rw [Nat.mul_left_comm, Nat.mul_comm d, ← pow2_div, ← mul_div_assoc,
    div_lt_div_iff₀ (cast_pow2_pos _) hd']
  exact_mod_cast Iff.rfl

theorem zpow_floorLog2 (hn : 0 < n) (hd : 0 < d) :
    (2 : ℚ) ^ floorLog2 n d ≤ n / d ∧ (n / d : ℚ) < 2 ^ (floorLog2 n d + 1) := by
  obtain ⟨hlow, hhigh⟩ := zpow_log2_sub hn hd
  have htest := mul_pow2_lt_iff (n := n) hd 1 (n.log2 - d.log2)
  rw [one_mul, Nat.cast_one, one_mul] at htest
  unfold floorLog2
  dsimp only
  split
  · next h =>
    rw [htest] at h
    exact ⟨hlow, by simpa using h⟩
  · next h =>
    rw [htest, not_lt] at h
    exact ⟨h, hhigh⟩

end Logarithm

theorem nearestEven_of_dvd {n d : Nat} (hd : 0 < d) (h : n % d = 0) : nearestEven n d = n / d := by
  simp [nearestEven, h, hd]

theorem le_nearestEven {n d m : Nat} (hd : 0 < d) (h : m * d ≤ n) : m ≤ nearestEven n d := by
  have hm : m ≤ n / d := (Nat.le_div_iff_mul_le hd).2 h
  unfold nearestEven
  dsimp only
  split
  · exact hm
  · split
    · exact Nat.le_succ_of_le hm
    · exact Nat.le_add_right_of_le hm

theorem nearestEven_le {n d m : Nat} (hd : 0 < d) (h : n < m * d) : nearestEven n d ≤ m := by
  have hm : n / d < m := (Nat.div_lt_iff_lt_mul hd).2 h
  unfold nearestEven
  dsimp only
  split
  · exact hm.le
  · split
    · exact hm
    · have hparity : n / d % 2 < 2 := Nat.mod_lt _ (by decide)
      omega

namespace Binary64

variable {x y : Binary64} {n d : Nat}

/-- Canonical, and without the sign minus. -/
def Unsigned (x : Binary64) : Prop := x.Canonical ∧ x.isNegative = false

theorem unsigned_signedZero : Unsigned (signedZero false) :=
  ⟨⟨pow2_pos 53, le_rfl, by decide, .inr rfl⟩, rfl⟩

theorem unsigned_infinite : Unsigned (.infinite false) := ⟨trivial, rfl⟩

theorem unsigned_nan : Unsigned .nan := ⟨trivial, rfl⟩

theorem unsigned_ofUnits {m : Nat} {e : Int} (hm : m ≤ pow2 53) (he : minExponent ≤ e)
    (hfull : pow2 52 ≤ m ∨ e = minExponent) : Unsigned (ofUnits false m e) := by
  have hpow : pow2 53 = 2 * pow2 52 := by rw [pow2_succ, Nat.mul_comm]
  have hpos : 0 < pow2 52 := pow2_pos 52
  unfold ofUnits
  by_cases hover : m = pow2 53
  · rw [if_pos hover]
    dsimp only
    split
    · exact unsigned_infinite
    · exact ⟨⟨by omega, by omega, by omega, .inl le_rfl⟩, rfl⟩
  · rw [if_neg hover]
    dsimp only
    split
    · exact unsigned_infinite
    · exact ⟨⟨by omega, he, by omega, hfull⟩, rfl⟩

theorem unsigned_round (hd : 0 < d) : Unsigned (round false n d) := by
  unfold round
  split
  · exact unsigned_signedZero
  · next hn =>
    obtain ⟨hlow, hhigh⟩ := zpow_floorLog2 (Nat.pos_of_ne_zero hn) hd
    set l := floorLog2 n d
    set e := max minExponent (l - 52)
    have hpos : 0 < d * pow2 e.toNat := Nat.mul_pos hd (pow2_pos _)
    have hunits (k : Nat) : n * pow2 (-e).toNat < pow2 k * (d * pow2 e.toNat) ↔
        (n / d : ℚ) < 2 ^ (k + e) := by
      rw [mul_pow2_lt_iff hd, cast_pow2, zpow_add₀ two_ne_zero, zpow_natCast]
    refine unsigned_ofUnits (nearestEven_le hpos ?_) (le_max_left _ _) ?_
    · have hle : l + 1 ≤ (53 : Nat) + e := by omega
      rw [hunits]
      exact hhigh.trans_le (zpow_le_zpow_right₀ one_le_two hle)
    · by_cases hleast : e = minExponent
      · exact .inr hleast
      · have hle : (52 : Nat) + e ≤ l := by omega
        refine .inl (le_nearestEven hpos ?_)
        rw [← not_lt, hunits, not_lt]
        exact (zpow_le_zpow_right₀ one_le_two hle).trans hlow

theorem unsigned_roundScaled (m : Nat) (e : Int) : Unsigned (roundScaled false m e) :=
  unsigned_round (pow2_pos _)

theorem unsigned_ofNat (n : Nat) : Unsigned (ofNat n) := unsigned_round Nat.one_pos

theorem unsigned_add (hx : x.isNegative = false) (hy : y.isNegative = false) :
    Unsigned (add x y) := by
  rcases x with _ | a | ⟨a, m, e⟩ <;> rcases y with _ | b | ⟨b, n, f⟩
  case finite.finite =>
    obtain rfl : a = false := hx
    obtain rfl : b = false := hy
    have hsum : 0 ≤ scaledTo (min e f) false m e + scaledTo (min e f) false n f :=
      Int.add_nonneg (Int.natCast_nonneg _) (Int.natCast_nonneg _)
    dsimp only [add]
    rw [decide_eq_false (Int.not_lt.2 hsum)]
    split
    · exact unsigned_signedZero
    · exact unsigned_roundScaled _ _
  case infinite.infinite =>
    obtain rfl : a = false := hx
    obtain rfl : b = false := hy
    exact unsigned_infinite
  case infinite.finite =>
    obtain rfl : a = false := hx
    exact unsigned_infinite
  case finite.infinite =>
    obtain rfl : b = false := hy
    exact unsigned_infinite
  all_goals exact unsigned_nan

theorem unsigned_mul (hx : x.isNegative = false) (hy : y.isNegative = false) :
    Unsigned (mul x y) := by
  rcases x with _ | a | ⟨a, m, e⟩ <;> rcases y with _ | b | ⟨b, n, f⟩
  case finite.finite =>
    obtain rfl : a = false := hx
    obtain rfl : b = false := hy
    exact unsigned_roundScaled _ _
  case infinite.infinite =>
    obtain rfl : a = false := hx
    obtain rfl : b = false := hy
    exact unsigned_infinite
  case infinite.finite =>
    obtain rfl : a = false := hx
    obtain rfl : b = false := hy
    dsimp only [mul]
    split
    · exact unsigned_nan
    · exact unsigned_infinite
  case finite.infinite =>
    obtain rfl : a = false := hx
    obtain rfl : b = false := hy
    dsimp only [mul]
    split
    · exact unsigned_nan
    · exact unsigned_infinite
  all_goals exact unsigned_nan

end Binary64

end SigilExpr
