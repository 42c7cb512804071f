import SigilExpr.Proofs.Binary64.Quantity

/-!
# What rounding leaves as it is

A quotient is rounded to units of the power of two that lets 53 bits of it stand before the point.
So a mantissa of 53 bits times a power of two is rounded to itself, as far as the exponents go, and
a natural of more bits is rounded to one of 53 bits with zeros behind them.
-/

set_option autoImplicit false

namespace SigilExpr

theorem floorLog2_eq {n d : Nat} {l : Int} (hn : 0 < n) (hd : 0 < d)
    (hlow : (2 : ℚ) ^ l ≤ n / d) (hhigh : (n / d : ℚ) < 2 ^ (l + 1)) : floorLog2 n d = l := by
  obtain ⟨hlow', hhigh'⟩ := zpow_floorLog2 hn hd
  have hle : l < floorLog2 n d + 1 :=
    (zpow_lt_zpow_iff_right₀ one_lt_two).1 (hlow.trans_lt hhigh')
  have hge : floorLog2 n d < l + 1 :=
    (zpow_lt_zpow_iff_right₀ one_lt_two).1 (hlow'.trans_lt hhigh)
  omega

/-- Rounding to an integer depends on the quotient only. -/
theorem nearestEven_congr {n d n' d' : Nat} (hd : 0 < d) (hd' : 0 < d') (h : n * d' = n' * d) :
    nearestEven n d = nearestEven n' d' := by
  have hscale {n d c : Nat} (hc : 0 < c) : nearestEven (n * c) (d * c) = nearestEven n d := by
    have hleft : 2 * (n % d * c) < d * c ↔ 2 * (n % d) < d := by
      rw [← Nat.mul_assoc, Nat.mul_lt_mul_right hc]
    have hright : d * c < 2 * (n % d * c) ↔ d < 2 * (n % d) := by
      rw [← Nat.mul_assoc, Nat.mul_lt_mul_right hc]
    simp only [nearestEven, Nat.mul_div_mul_right n d hc, Nat.mul_mod_mul_right, hleft, hright]
  rw [← hscale hd', h, Nat.mul_comm d, hscale hd]

namespace Binary64

variable {negative : Bool} {n d m : Nat} {e : Int}

/-- A quotient is rounded in units of `2 ^ e` if 53 bits of it stand before the point then, or fewer
if `e` is the least exponent. -/
theorem round_eq_ofUnits (hn : 0 < n) (hd : 0 < d) (he : minExponent ≤ e)
    (hhigh : (n / d : ℚ) < 2 ^ (53 + e)) (hlow : (2 : ℚ) ^ (52 + e) ≤ n / d ∨ e = minExponent) :
    round negative n d =
      ofUnits negative (nearestEven (n * pow2 (-e).toNat) (d * pow2 e.toNat)) e := by
  have hexponent : max minExponent (floorLog2 n d - 52) = e := by
    rcases hlow with hlow | rfl
    · have hlog : floorLog2 n d = 52 + e := floorLog2_eq hn hd hlow (by
        rwa [show 52 + e + 1 = 53 + e by omega])
      omega
    · have hle : floorLog2 n d < 53 + minExponent :=
        (zpow_lt_zpow_iff_right₀ one_lt_two).1 ((zpow_floorLog2 hn hd).1.trans_lt hhigh)
      omega
  unfold round
  rw [if_neg (Nat.ne_of_gt hn), hexponent]

theorem ofUnits_of_canonical (h : (finite negative m e).Canonical) :
    ofUnits negative m e = finite negative m e := by
  obtain ⟨hm, -, he, -⟩ := h
  unfold ofUnits
  rw [if_neg (Nat.ne_of_lt hm)]
  exact if_neg (Int.not_lt.2 he)

/-- A mantissa times a power of two is rounded to itself. -/
theorem round_eq_finite (hd : 0 < d) (hm : 0 < m) (h : (finite negative m e).Canonical)
    (hvalue : (n / d : ℚ) = m * 2 ^ e) : round negative n d = finite negative m e := by
  have hd' : (0 : ℚ) < d := Nat.cast_pos.2 hd
  have hpos : (0 : ℚ) < n / d := hvalue ▸ mul_pos (Nat.cast_pos.2 hm) (zpow_pos two_pos e)
  have hn : 0 < n := by
    rcases Nat.eq_zero_or_pos n with rfl | hn
    · simp at hpos
    · exact hn
  obtain ⟨hmax, he, -, hfull⟩ := id h
  have hcast (i : Nat) : ((pow2 i : Nat) : ℚ) * 2 ^ e = 2 ^ (i + e) := by
    rw [cast_pow2, zpow_add₀ two_ne_zero, zpow_natCast]
  have hhigh : (n / d : ℚ) < 2 ^ (53 + e) := by
    rw [hvalue]
    have hlt : (m : ℚ) < (pow2 53 : Nat) := Nat.cast_lt.2 hmax
    exact (mul_lt_mul_of_pos_right hlt (zpow_pos two_pos e)).trans_eq (hcast 53)
  have hlow : (2 : ℚ) ^ (52 + e) ≤ n / d ∨ e = minExponent := by
    refine hfull.imp_left ?_
    intro hfull
    rw [hvalue]
    have hle : ((pow2 52 : Nat) : ℚ) ≤ m := Nat.cast_le.2 hfull
    exact (hcast 52).symm.trans_le (mul_le_mul_of_nonneg_right hle (zpow_pos two_pos e).le)
  -- In these units the quotient is the mantissa, so that nothing is left to round.
  have hunits : n * pow2 (-e).toNat = m * (d * pow2 e.toNat) := by
    have hq : (n * pow2 (-e).toNat : ℚ) = m * (d * pow2 e.toNat) := by
      rw [div_eq_iff (ne_of_gt hd'), ← pow2_div] at hvalue
      have hdown := (cast_pow2_pos (-e).toNat).ne'
      rw [hvalue]
      field_simp
    exact_mod_cast hq
  have hunit : 0 < d * pow2 e.toNat := Nat.mul_pos hd (pow2_pos _)
  rw [round_eq_ofUnits hn hd he hhigh hlow, hunits,
    nearestEven_of_dvd hunit (Nat.mul_mod_left _ _), Nat.mul_div_cancel _ hunit,
    ofUnits_of_canonical h]

/-- Rounding depends on the quotient only. -/
theorem round_congr {n' d' : Nat} (hd : 0 < d) (hd' : 0 < d') (h : n * d' = n' * d) :
    round negative n d = round negative n' d' := by
  rcases Nat.eq_zero_or_pos n with rfl | hn
  · have hzero : n' = 0 := by
      rw [Nat.zero_mul] at h
      exact (Nat.mul_eq_zero.1 h.symm).resolve_right hd.ne'
    simp only [round, hzero, if_true]
  · have hn' : 0 < n' := Nat.pos_of_mul_pos_right (h ▸ Nat.mul_pos hn hd')
    have hquotient : (n / d : ℚ) = n' / d' := by
      rw [div_eq_div_iff (Nat.cast_pos.2 hd).ne' (Nat.cast_pos.2 hd').ne']
      exact_mod_cast h
    have hlog : floorLog2 n d = floorLog2 n' d' := by
      obtain ⟨hlow, hhigh⟩ := zpow_floorLog2 hn' hd'
      rw [← hquotient] at hlow hhigh
      exact floorLog2_eq hn hd hlow hhigh
    unfold round
    rw [if_neg hn.ne', if_neg hn'.ne', hlog]
    dsimp only
    congr 1
    refine nearestEven_congr (Nat.mul_pos hd (pow2_pos _)) (Nat.mul_pos hd' (pow2_pos _)) ?_
    rw [Nat.mul_mul_mul_comm, h, Nat.mul_mul_mul_comm]

/-- A natural of more than 53 bits is rounded in units of a power of two. -/
theorem round_natural {s : Nat} (hlow : pow2 (52 + s) ≤ n) (hhigh : n < pow2 (53 + s)) :
    round negative n 1 = ofUnits negative (nearestEven n (pow2 s)) s := by
  have hn : 0 < n := (pow2_pos _).trans_le hlow
  have hcast (i : Nat) : (2 : ℚ) ^ ((i : Int) + s) = (pow2 (i + s) : Nat) := by
    rw [cast_pow2, ← Nat.cast_add, zpow_natCast]
  have hquotient : ((n : ℚ) / (1 : Nat)) = n := by rw [Nat.cast_one, div_one]
  have hround : round negative n 1 =
      ofUnits negative (nearestEven (n * pow2 (-(s : Int)).toNat) (1 * pow2 (s : Int).toNat)) s :=
    round_eq_ofUnits hn Nat.one_pos
      (by unfold minExponent; omega)
      (by rw [hquotient]; exact (Nat.cast_lt.2 hhigh).trans_eq (hcast 53).symm)
      (.inl (by rw [hquotient]; exact (hcast 52).trans_le (Nat.cast_le.2 hlow)))
  simpa using hround

theorem ofUnits_full (negative : Bool) (e : Int) :
    ofUnits negative (pow2 53) e = ofUnits negative (pow2 52) (e + 1) := rfl

/-- Units that fit the mantissa are a number of that value, unless they are too large. -/
theorem ofUnits_cases (hm : m < pow2 53) (e : Int) :
    ofUnits negative m e = .infinite negative ∨ ofUnits negative m e = .finite negative m e := by
  unfold ofUnits
  rw [if_neg (Nat.ne_of_lt hm)]
  dsimp only
  split
  · exact .inl rfl
  · exact .inr rfl

theorem signed_mul (negative : Bool) (m c : Nat) :
    signed negative (m * c) = signed negative m * c := by
  cases negative <;> simp [signed]

theorem quantity?_ofUnits (hm : m ≤ pow2 53) (e : Int) : ofUnits negative m e = .infinite negative ∨
    (ofUnits negative m e).quantity? = some (.inr (signed negative m * 2 ^ e)) := by
  rcases Nat.eq_or_lt_of_le hm with rfl | hlt
  · rw [ofUnits_full]
    refine (ofUnits_cases (by decide) (e + 1)).imp_right ?_
    intro h
    have hpow : pow2 53 = pow2 52 * 2 := rfl
    rw [h, quantity?, hpow, signed_mul, zpow_add_one₀ two_ne_zero]
    congr 2
    push_cast
    ring
  · refine (ofUnits_cases hlt e).imp_right ?_
    intro h
    rw [h, quantity?]

end Binary64

end SigilExpr
