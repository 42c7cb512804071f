import SigilExpr.Decimal.Shortest
import SigilExpr.Proofs.Binary64.Round

/-!
# Shortest digits tell numbers apart

The reals that read back as a number lie around it, half a unit of its exponent away at most, and
only a quarter below a power of two, where the numbers below stand closer. No real lies around two
numbers. The shortest digits of a number lie around it, since at the last place that is searched the
multiples of the power of ten stand closer than half a unit.
-/

set_option autoImplicit false

namespace SigilExpr.Decimal

open Binary64

/-- How far the reals around `m·2^e` reach below it, in quarters of `2 ^ e`. -/
def quartersBelow (m : Nat) (e : Int) : Nat :=
  if m = pow2 52 && minExponent < e then 1 else 2

def lowEnd (m : Nat) (e : Int) : ℚ := ((4 * m - quartersBelow m e : Nat) : ℚ) * 2 ^ (e - 2)

def highEnd (m : Nat) (e : Int) : ℚ := ((4 * m + 2 : Nat) : ℚ) * 2 ^ (e - 2)

/-- The real is nearer to `m·2^e` than to its neighbours; a real between two goes to the even. -/
structure Around (m : Nat) (e : Int) (x : ℚ) : Prop where
  low : lowEnd m e ≤ x
  high : x ≤ highEnd m e
  odd : m % 2 = 1 → lowEnd m e < x ∧ x < highEnd m e

variable {m n d : Nat} {e f : Int} {x : ℚ}

theorem zpow_eq_quarters (e : Int) : (2 : ℚ) ^ e = 4 * 2 ^ (e - 2) := by
  rw [zpow_sub₀ two_ne_zero]
  ring

theorem contains_iff (i : Interval) : i.contains n d = true ↔
    i.low * d ≤ n * i.denominator ∧ n * i.denominator ≤ i.high * d ∧
      (i.closed = false → i.low * d < n * i.denominator ∧ n * i.denominator < i.high * d) := by
  unfold Interval.contains
  cases i.closed with
  | false =>
    simp only [Bool.false_eq_true, if_false, Bool.and_eq_true, decide_eq_true_eq, forall_const]
    exact ⟨fun h => ⟨h.1.le, h.2.le, h⟩, fun h => h.2.2⟩
  | true => simp

/-- The ends of the interval are compared over its denominator as the reals are. -/
theorem contains_around_iff (hd : 0 < d) :
    (Interval.around m e).contains n d = true ↔ Around m e (n / d) := by
  have hlt (c : Nat) : n * pow2 (2 - e).toNat < c * pow2 (e - 2).toNat * d ↔
      (n / d : ℚ) < c * 2 ^ (e - 2) := by
    rw [← mul_pow2_lt_iff hd, neg_sub, Nat.mul_assoc, Nat.mul_comm _ d]
  have hgt (c : Nat) : c * pow2 (e - 2).toNat * d < n * pow2 (2 - e).toNat ↔
      c * 2 ^ (e - 2) < (n / d : ℚ) := by
    rw [← lt_mul_pow2_iff hd, neg_sub, Nat.mul_assoc, Nat.mul_comm _ d]
  have hodd : (Interval.around m e).closed = false ↔ m % 2 = 1 := by
    simp [Interval.around]
  have hlow := hlt (4 * m - quartersBelow m e)
  have hlow' := hgt (4 * m - quartersBelow m e)
  have hhigh := hlt (4 * m + 2)
  have hhigh' := hgt (4 * m + 2)
  rw [contains_iff, hodd]
  constructor
  · rintro ⟨h, h', hstrict⟩
    refine ⟨?_, ?_, ?_⟩
    · exact not_lt.1 fun hx => (hlow.2 hx).not_ge h
    · exact not_lt.1 fun hx => (hhigh'.2 hx).not_ge h'
    · exact fun hm => ⟨hlow'.1 (hstrict hm).1, hhigh.1 (hstrict hm).2⟩
  · rintro ⟨h, h', hstrict⟩
    refine ⟨?_, ?_, ?_⟩
    · exact not_lt.1 fun hx => (hlow.1 hx).not_ge h
    · exact not_lt.1 fun hx => (hhigh'.1 hx).not_ge h'
    · exact fun hm => ⟨hlow'.2 (hstrict hm).1, hhigh.2 (hstrict hm).2⟩

section Apart

variable {k : Nat} {f : Int}

theorem quartersBelow_le (m : Nat) (e : Int) : quartersBelow m e ≤ 2 := by
  unfold quartersBelow
  split <;> omega

theorem quartersBelow_full (he : minExponent < e) : quartersBelow (pow2 52) e = 1 := by
  simp [quartersBelow, he]

/-- Of two numbers with one exponent, the reals around the lesser one end first. -/
theorem highEnd_le_lowEnd (h : m < k) (e : Int) : highEnd m e ≤ lowEnd k e := by
  have hquarters := quartersBelow_le k e
  have hle : 4 * m + 2 ≤ 4 * k - quartersBelow k e := by omega
  unfold highEnd lowEnd
  gcongr

theorem highEnd_lt_lowEnd (h : m + 1 < k) (e : Int) : highEnd m e < lowEnd k e := by
  have hquarters := quartersBelow_le k e
  have hlt : 4 * m + 2 < 4 * k - quartersBelow k e := by omega
  unfold highEnd lowEnd
  gcongr

/-- A full mantissa leaves room for all numbers of a lesser exponent. -/
theorem le_lowEnd (hk : pow2 52 ≤ k) (he : minExponent ≤ e) (hf : e < f) :
    ((4 * pow2 53 - 2 : Nat) : ℚ) * 2 ^ (e - 2) ≤ lowEnd k f := by
  have hquarters := quartersBelow_le k f
  have hpow : pow2 53 = pow2 52 * 2 := pow2_succ 52
  have hle : 4 * pow2 53 - 2 ≤ (4 * k - quartersBelow k f) * 2 := by
    rcases Nat.eq_or_lt_of_le hk with rfl | hlt
    · rw [quartersBelow_full (he.trans_lt hf)]
      omega
    · omega
  have hstep : e - 1 ≤ f - 2 := by omega
  calc ((4 * pow2 53 - 2 : Nat) : ℚ) * 2 ^ (e - 2)
      ≤ ((4 * k - quartersBelow k f) * 2 : Nat) * 2 ^ (e - 2) := by gcongr
    _ = ((4 * k - quartersBelow k f : Nat) : ℚ) * 2 ^ (e - 1) := by
        rw [Nat.cast_mul, mul_assoc, Nat.cast_two, ← zpow_one_add₀ two_ne_zero]
        congr 2
        omega
    _ ≤ lowEnd k f := by
        unfold lowEnd
        gcongr
        exact one_le_two

theorem highEnd_le (h : m < pow2 53) (e : Int) :
    highEnd m e ≤ ((4 * pow2 53 - 2 : Nat) : ℚ) * 2 ^ (e - 2) := by
  have hle : 4 * m + 2 ≤ 4 * pow2 53 - 2 := by omega
  unfold highEnd
  gcongr

theorem highEnd_lt (h : m + 1 < pow2 53) (e : Int) :
    highEnd m e < ((4 * pow2 53 - 2 : Nat) : ℚ) * 2 ^ (e - 2) := by
  have hlt : 4 * m + 2 < 4 * pow2 53 - 2 := by omega
  unfold highEnd
  gcongr

/-- Two numbers have no real around both unless the reals around the first end where those around
the second begin; then the first is even, and the second is not the next one. -/
theorem Around.not_around (hx : Around m e x) (hle : highEnd m e ≤ lowEnd k f)
    (hlt : m % 2 = 0 → k % 2 = 1 ∨ highEnd m e < lowEnd k f) : ¬ Around k f x := by
  intro hy
  rcases Nat.mod_two_eq_zero_or_one m with hm | hm
  · rcases hlt hm with hk | hlt
    · exact ((hx.high.trans hle).trans_lt (hy.odd hk).1).false
    · exact ((hx.high.trans_lt hlt).trans_le hy.low).false
  · exact (((hx.odd hm).2.trans_le hle).trans_le hy.low).false

theorem Around.not_around_of_lt (hx : Around m e x) (h : m < k) : ¬ Around k e x := by
  refine hx.not_around (highEnd_le_lowEnd h e) ?_
  intro hm
  by_cases hnext : k = m + 1
  · exact .inl (by omega)
  · exact .inr (highEnd_lt_lowEnd (by omega) e)

theorem Around.not_around_of_exponent_lt (hx : Around m e x) (hm : m < pow2 53)
    (hk : pow2 52 ≤ k) (he : minExponent ≤ e) (hf : e < f) : ¬ Around k f x := by
  have hlow := le_lowEnd hk he hf
  refine hx.not_around ((highEnd_le hm e).trans hlow) ?_
  intro heven
  have hodd : pow2 53 % 2 = 0 := rfl
  exact .inr ((highEnd_lt (by omega) e).trans_le hlow)

theorem Around.unique (hx : Around m e x) (hy : Around k f x)
    (hm : (Binary64.finite false m e).Canonical) (hk : (Binary64.finite false k f).Canonical) :
    m = k ∧ e = f := by
  obtain ⟨hm, he, -, hmfull⟩ := hm
  obtain ⟨hk, hf, -, hkfull⟩ := hk
  rcases lt_trichotomy e f with hlt | rfl | hlt
  · exact absurd hy (hx.not_around_of_exponent_lt hm (by omega) he hlt)
  · rcases Nat.lt_trichotomy m k with hlt | rfl | hlt
    · exact absurd hy (hx.not_around_of_lt hlt)
    · exact ⟨rfl, rfl⟩
    · exact absurd hx (hy.not_around_of_lt hlt)
  · exact absurd hx (hy.not_around_of_exponent_lt hk (by omega) hf hlt)

end Apart

section Search

variable {tie : Tie} {p : Int} {i : Interval}

theorem contains_of_onGrid? (h : i.onGrid? tie p = some n) :
    i.contains (n * pow10 p.toNat) (pow10 (-p).toNat) = true := by
  unfold Interval.onGrid? at h
  dsimp only at h
  split at h
  · cases h
  · next hbelow _ =>
    obtain rfl := Option.some.inj h
    exact hbelow
  · next _ habove =>
    obtain rfl := Option.some.inj h
    exact habove
  · next hbelow habove =>
    split at h
    · obtain rfl := Option.some.inj h
      exact hbelow
    · obtain rfl := Option.some.inj h
      exact habove

theorem onGrid?_isSome
    (h : i.contains ((i.value * pow10 (-p).toNat / (i.denominator * pow10 p.toNat) + 1) *
      pow10 p.toNat) (pow10 (-p).toNat) = true) : (i.onGrid? tie p).isSome = true := by
  unfold Interval.onGrid?
  dsimp only
  rw [h]
  split
  · next habove => cases habove
  · rfl
  · rfl
  · split <;> rfl

theorem mul_pow10_div (n : Nat) (p : Int) :
    ((n * pow10 p.toNat : Nat) / (pow10 (-p).toNat : Nat) : ℚ) = n * 10 ^ p := by
  rw [Nat.cast_mul, mul_div_assoc, pow10_div]

theorem around_of_onGrid? (h : (Interval.around m e).onGrid? tie p = some n) :
    Around m e (n * 10 ^ p) := by
  rw [← mul_pow10_div, ← contains_around_iff (pow10_pos _)]
  exact contains_of_onGrid? h

/-- A value lies between two neighbours among the multiples of a power of ten. -/
theorem floor_multiple (v p) {d : Nat} (hd : 0 < d) :
    ((v * pow10 (-p).toNat / (d * pow10 p.toNat) : Nat) : ℚ) * 10 ^ p ≤ v / d ∧
      (v / d : ℚ) < ((v * pow10 (-p).toNat / (d * pow10 p.toNat) + 1 : Nat) : ℚ) * 10 ^ p := by
  have hd' : (0 : ℚ) < d := Nat.cast_pos.2 hd
  have hparts := cast_pow10_pos (-p).toNat
  have hunit : 0 < d * pow10 p.toNat := Nat.mul_pos hd (pow10_pos _)
  have hlow := Nat.div_mul_le_self (v * pow10 (-p).toNat) (d * pow10 p.toNat)
  have hhigh := Nat.lt_mul_div_succ (v * pow10 (-p).toNat) hunit
  rw [← pow10_div, ← mul_div_assoc, ← mul_div_assoc]
  constructor
  · rw [div_le_div_iff₀ hparts hd', mul_assoc, mul_comm (pow10 p.toNat : ℚ)]
    exact_mod_cast hlow
  · rw [div_lt_div_iff₀ hd' hparts, mul_assoc, mul_comm (pow10 p.toNat : ℚ)]
    rw [Nat.mul_comm (d * pow10 p.toNat)] at hhigh
    exact_mod_cast hhigh

/-- The interval's value is the number. -/
theorem value_div_denominator (m : Nat) (e : Int) :
    ((Interval.around m e).value / (Interval.around m e).denominator : ℚ) = m * 2 ^ e := by
  have hneg : 2 - e = -(e - 2) := (neg_sub e 2).symm
  dsimp only [Interval.around]
  rw [Nat.cast_mul, mul_div_assoc, hneg, pow2_div, zpow_eq_quarters e]
  push_cast
  ring

theorem lowEnd_le (m : Nat) (e : Int) : lowEnd m e ≤ m * 2 ^ e := by
  have hle : 4 * m - quartersBelow m e ≤ 4 * m := Nat.sub_le _ _
  calc lowEnd m e ≤ ((4 * m : Nat) : ℚ) * 2 ^ (e - 2) := by
        unfold lowEnd
        gcongr
    _ = m * 2 ^ e := by
        rw [zpow_eq_quarters e]
        push_cast
        ring

theorem highEnd_eq (m : Nat) (e : Int) : highEnd m e = m * 2 ^ e + 2 ^ (e - 1) := by
  have hhalf : (2 : ℚ) ^ (e - 1) = 2 * 2 ^ (e - 2) := by
    rw [← zpow_one_add₀ two_ne_zero]
    congr 1
    omega
  rw [highEnd, zpow_eq_quarters e, hhalf]
  push_cast
  ring

/-- Multiples that stand closer than half a unit of a number have one around it. -/
theorem onGrid?_isSome_of_lt (h : (10 : ℚ) ^ p < 2 ^ (e - 1)) :
    ((Interval.around m e).onGrid? tie p).isSome = true := by
  obtain ⟨hbelow, habove⟩ := floor_multiple (Interval.around m e).value p
    (d := (Interval.around m e).denominator) (pow2_pos _)
  rw [value_div_denominator] at hbelow habove
  apply onGrid?_isSome
  rw [contains_around_iff (pow10_pos _), mul_pow10_div]
  set b := (Interval.around m e).value * pow10 (-p).toNat /
    ((Interval.around m e).denominator * pow10 p.toNat)
  have hlow := lowEnd_le m e
  have hhigh := highEnd_eq m e
  have hlt : ((b + 1 : Nat) : ℚ) * 10 ^ p < highEnd m e := by
    push_cast
    linarith
  exact ⟨(hlow.trans_lt habove).le, hlt.le, fun _ => ⟨hlow.trans_lt habove, hlt⟩⟩

/-- The cube of ten is below the tenth power of two. -/
theorem ten_zpow_lt_of_nonneg {p e : Int} (hp : 0 ≤ p) (h : 10 * p < e * 3) :
    (10 : ℚ) ^ p < 2 ^ e := by
  apply lt_of_pow_lt_pow_left₀ 3 (by positivity)
  calc ((10 : ℚ) ^ p) ^ 3 = (10 ^ (3 : Int)) ^ p := by
        rw [← zpow_natCast, zpow_comm]
        rfl
    _ ≤ (2 ^ (10 : Int)) ^ p := zpow_le_zpow_left₀ hp (by norm_num) (by norm_num)
    _ = 2 ^ (10 * p) := (zpow_mul _ _ _).symm
    _ < 2 ^ (e * 3) := zpow_lt_zpow_right₀ one_lt_two h
    _ = (2 ^ e) ^ 3 := zpow_mul _ _ _

/-- The thirteenth power of ten is above the forty-third of two. -/
theorem lt_ten_zpow_of_nonneg {p e : Int} (hp : 0 ≤ p) (h : e * 13 < 43 * p) :
    (2 : ℚ) ^ e < 10 ^ p := by
  apply lt_of_pow_lt_pow_left₀ 13 (by positivity)
  calc ((2 : ℚ) ^ e) ^ 13 = 2 ^ (e * 13) := (zpow_mul _ _ _).symm
    _ < 2 ^ (43 * p) := zpow_lt_zpow_right₀ one_lt_two h
    _ = (2 ^ (43 : Int)) ^ p := zpow_mul _ _ _
    _ ≤ (10 ^ (13 : Int)) ^ p := zpow_le_zpow_left₀ hp (by norm_num) (by norm_num)
    _ = (10 ^ p) ^ 13 := by
        rw [← zpow_natCast, zpow_comm]
        rfl

theorem ten_zpow_lt {p e : Int} (hpos : 10 * p < 3 * e) (hneg : 43 * p < 13 * e) :
    (10 : ℚ) ^ p < 2 ^ e := by
  rcases le_total 0 p with hp | hp
  · exact ten_zpow_lt_of_nonneg hp (by omega)
  · have h := lt_ten_zpow_of_nonneg (p := -p) (e := -e) (by omega) (by omega)
    rw [zpow_neg, zpow_neg] at h
    exact (inv_lt_inv₀ (by positivity) (by positivity)).1 h

/-- The place of the first digit is a bound on the number's size. -/
theorem floorLog2_value_lt (hm : 0 < m) (h : m < pow2 53) :
    floorLog2 (Interval.around m e).value (Interval.around m e).denominator < e + 53 := by
  have hvalue : 0 < (Interval.around m e).value :=
    Nat.mul_pos (Nat.mul_pos (by decide) hm) (pow2_pos _)
  obtain ⟨hlow, -⟩ := zpow_floorLog2 (d := (Interval.around m e).denominator) hvalue (pow2_pos _)
  rw [value_div_denominator] at hlow
  have hm' : (m : ℚ) < 2 ^ (53 : Int) := by
    have hcast : (m : ℚ) < pow2 53 := Nat.cast_lt.2 h
    rwa [cast_pow2] at hcast
  rw [← zpow_lt_zpow_iff_right₀ (one_lt_two (α := ℚ))]
  calc (2 : ℚ) ^ floorLog2 (Interval.around m e).value (Interval.around m e).denominator
      ≤ m * 2 ^ e := hlow
    _ < 2 ^ (53 : Int) * 2 ^ e := by gcongr
    _ = 2 ^ (e + 53) := by rw [← zpow_add₀ two_ne_zero, Int.add_comm]

/-- At the last place that is searched there is a multiple around the number. -/
theorem exists_shortest (tie : Tie) (hm : 0 < m) (h : (Binary64.finite false m e).Canonical) :
    ∃ n p, shortest tie m e = (n, p) ∧ (Interval.around m e).onGrid? tie p = some n := by
  obtain ⟨hbound, hmin, hmax, -⟩ := h
  have hlog := floorLog2_value_lt (e := e) hm hbound
  unfold shortest
  dsimp only
  set i := Interval.around m e
  set l := floorLog2 i.value i.denominator
  set top := (l * 30103).fdiv 100000 + 1 with htop
  rw [Int.fdiv_eq_ediv_of_nonneg _ (by decide)] at htop
  -- the twentieth place is below half a unit, so the search does not end without a multiple
  have hlast : (i.onGrid? tie (top - (19 : Nat))).isSome = true := by
    apply onGrid?_isSome_of_lt
    unfold minExponent at hmin
    unfold maxExponent at hmax
    exact ten_zpow_lt (by omega) (by omega)
  cases hfound : (List.range 20).findSome? fun (k : Nat) =>
      (i.onGrid? tie (top - k)).map fun n => (n, top - k) with
  | none =>
    have hnone := List.findSome?_eq_none_iff.1 hfound 19 (by decide)
    rw [Option.map_eq_none_iff] at hnone
    rw [hnone] at hlast
    cases hlast
  | some found =>
    obtain ⟨k, -, hk⟩ := List.exists_of_findSome?_eq_some hfound
    obtain ⟨n, hn, rfl⟩ := Option.map_eq_some_iff.1 hk
    exact ⟨n, top - k, rfl, hn⟩

theorem around_shortest (tie : Tie) (hm : 0 < m) (h : (Binary64.finite false m e).Canonical) :
    Around m e ((shortest tie m e).1 * 10 ^ (shortest tie m e).2) := by
  obtain ⟨n, p, heq, hn⟩ := exists_shortest tie hm h
  rw [heq]
  exact around_of_onGrid? hn

theorem Around.pos (hm : 0 < m) (h : Around m e x) : 0 < x := by
  have hquarters := quartersBelow_le m e
  have hpos : 0 < 4 * m - quartersBelow m e := by omega
  have hlow : 0 < lowEnd m e := by
    unfold lowEnd
    positivity
  exact hlow.trans_le h.low

end Search

end SigilExpr.Decimal
