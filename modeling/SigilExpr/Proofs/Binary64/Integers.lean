import SigilExpr.Proofs.Binary64.Exact

/-!
# Integers among the doubles

The integers up to `2 ^ 53` are doubles, and no integer beyond is rounded to one below `2 ^ 53`. The
operations on doubles that are integers find the exact result and round it once, so that a result
which is an integer up to `2 ^ 53` is exact. Remainders always are.
-/

set_option autoImplicit false

namespace SigilExpr.Binary64

variable {x y : Binary64} {negative : Bool} {n m : Nat} {k l : Int}

theorem dvd_signed_iff {c : Nat} : (c : Int) ∣ signed negative m ↔ c ∣ m := by
  cases negative with
  | false => exact Int.natCast_dvd_natCast
  | true => exact Int.dvd_neg.trans Int.natCast_dvd_natCast

/-- A double without a fraction amounts to its integer. -/
theorem toInt?_eq_some_iff_quantity? : x.toInt? = some k ↔ x.quantity? = some (.inr (k : ℚ)) := by
  rcases x with _ | negative | ⟨negative, m, e⟩
  · simp [toInt?, quantity?]
  · simp [toInt?, quantity?]
  · have hpos : 0 < pow2 (-e).toNat := pow2_pos _
    have hvalue : (signed negative m * 2 ^ e : ℚ) = k ↔
        signed negative (m * pow2 e.toNat) = k * (pow2 (-e).toNat : Nat) := by
      rw [← pow2_div, ← mul_div_assoc, div_eq_iff (cast_pow2_pos _).ne', signed_mul]
      exact_mod_cast Iff.rfl
    simp only [toInt?, quantity?, Option.some.injEq, Sum.inr.injEq, hvalue]
    generalize m * pow2 e.toNat = a at *
    generalize pow2 (-e).toNat = b at *
    split
    · next hmod =>
      obtain ⟨q, rfl⟩ := Nat.dvd_of_mod_eq_zero hmod
      rw [Option.some.injEq, Nat.mul_div_cancel_left q hpos, Nat.mul_comm, signed_mul]
      exact (mul_left_inj' (by exact_mod_cast hpos.ne')).symm
    · next hmod =>
      have hnot : ¬ b ∣ a := fun h => hmod (Nat.mod_eq_zero_of_dvd h)
      have hne : signed negative a ≠ k * b := by
        intro heq
        exact hnot (dvd_signed_iff.1 (heq ▸ Int.dvd_mul_left k b))
      simp [hne]

theorem truncate?_of_toInt? (h : x.toInt? = some k) : x.truncate? = some k := by
  rcases x with _ | negative | ⟨negative, m, e⟩
  · cases h
  · cases h
  · simp only [toInt?] at h
    split at h
    · exact h
    · cases h

theorem toInt?_signedZero (negative : Bool) : (signedZero negative).toInt? = some 0 := by
  rw [toInt?_eq_some_iff_quantity?]
  cases negative <;> simp [signedZero, quantity?, signed]

/-- A natural of at most 53 bits, or the next one, is a full mantissa times a power of two. -/
theorem exists_mantissa (hn : 0 < n) (h : n ≤ pow2 53) :
    ∃ (m : Nat) (e : Int), pow2 52 ≤ m ∧ m < pow2 53 ∧ -52 ≤ e ∧ e ≤ 1 ∧ (n : ℚ) = m * 2 ^ e := by
  rcases Nat.eq_or_lt_of_le h with rfl | hlt
  · refine ⟨pow2 52, 1, le_rfl, by decide, by decide, le_rfl, ?_⟩
    simp only [pow2_succ, Nat.cast_mul, Nat.cast_ofNat, zpow_one]
  · have hlog : n.log2 < 53 := (Nat.log2_lt (Nat.ne_of_gt hn)).2 hlt
    have hlow : pow2 n.log2 ≤ n := Nat.log2_self_le (Nat.ne_of_gt hn)
    have hhigh : n < pow2 (n.log2 + 1) := Nat.lt_log2_self
    have hsplit : pow2 52 = pow2 n.log2 * pow2 (52 - n.log2) := by
      rw [← pow2_add]
      congr 1
      omega
    have hsplit' : pow2 53 = pow2 (n.log2 + 1) * pow2 (52 - n.log2) := by
      rw [← pow2_add]
      congr 1
      omega
    have hunit : 0 < pow2 (52 - n.log2) := pow2_pos _
    refine ⟨n * pow2 (52 - n.log2), -((52 - n.log2 : Nat) : Int), ?_, ?_, by omega, by omega, ?_⟩
    · rw [hsplit]
      exact Nat.mul_le_mul_right _ hlow
    · rw [hsplit']
      exact Nat.mul_lt_mul_of_pos_right hhigh hunit
    · rw [Nat.cast_mul, cast_pow2, zpow_neg, zpow_natCast]
      field_simp

/-- Up to `2 ^ 53` a natural is a double, and so is it times a power of two. -/
theorem toInt?_round_mul (h : n ≤ pow2 53) {t : Nat} (ht : t ≤ 970) :
    (round negative (n * pow2 t) 1).toInt? = some (signed negative (n * pow2 t)) := by
  rcases Nat.eq_zero_or_pos n with rfl | hn
  · simpa [round, signed] using toInt?_signedZero negative
  · obtain ⟨m, e, hfull, hm, hlow, hhigh, hvalue⟩ := exists_mantissa hn h
    have hcanonical : (finite negative m (e + t)).Canonical :=
      ⟨hm, by unfold minExponent; omega, by unfold maxExponent; omega, .inl hfull⟩
    have hscaled : ((n * pow2 t : Nat) : ℚ) = m * 2 ^ (e + t) := by
      rw [Nat.cast_mul, hvalue, cast_pow2, zpow_add₀ two_ne_zero, zpow_natCast, mul_assoc]
    rw [round_eq_finite Nat.one_pos ((pow2_pos 52).trans_le hfull) hcanonical
      (by rw [Nat.cast_one, div_one, hscaled]), toInt?_eq_some_iff_quantity?, quantity?]
    cases negative <;> simp [signed, ← hscaled]

theorem toInt?_round (h : n ≤ pow2 53) :
    (round negative n 1).toInt? = some (signed negative n) := by
  have hround : (round negative (n * pow2 0) 1).toInt? = some (signed negative (n * pow2 0)) :=
    toInt?_round_mul h (Nat.zero_le 970)
  rwa [pow2_zero, Nat.mul_one] at hround

theorem ofInt_natCast (n : Nat) : ofInt n = ofNat n := rfl

theorem signed_natAbs (k : Int) : signed (decide (k < 0)) k.natAbs = k := by
  by_cases hk : k < 0
  · simp only [hk, decide_true, signed, if_true]
    omega
  · simp only [hk, decide_false, signed, Bool.false_eq_true, if_false]
    omega

/-- Integers up to `2 ^ 53` are doubles. -/
theorem toInt?_ofInt (h : k.natAbs ≤ pow2 53) : (ofInt k).toInt? = some k := by
  rw [ofInt, toInt?_round h, signed_natAbs]

theorem toInt?_ofNat (h : n ≤ pow2 53) : (ofNat n).toInt? = some (n : Int) :=
  toInt?_round h

/-- Beyond `2 ^ 53` a natural is rounded, but not down to anything below. -/
theorem round_large (h : pow2 53 ≤ n) : round negative n 1 = .infinite negative ∨
    ∃ i, (round negative n 1).toInt? = some (signed negative i) ∧ pow2 53 ≤ i := by
  have hn : n ≠ 0 := ((pow2_pos 53).trans_le h).ne'
  obtain ⟨s, hs⟩ := Nat.exists_eq_add_of_le ((Nat.le_log2 hn).2 h)
  have hlow : pow2 (52 + (s + 1)) ≤ n := by
    rw [show 52 + (s + 1) = n.log2 by omega]
    exact Nat.log2_self_le hn
  have hhigh : n < pow2 (53 + (s + 1)) := by
    rw [show 53 + (s + 1) = n.log2 + 1 by omega]
    exact Nat.lt_log2_self
  have hunit : 0 < pow2 (s + 1) := pow2_pos _
  rw [round_natural hlow hhigh]
  rw [pow2_add] at hlow hhigh
  have hmin := le_nearestEven hunit hlow
  refine (quantity?_ofUnits (nearestEven_le hunit hhigh) _).imp_right ?_
  intro hvalue
  refine ⟨nearestEven n (pow2 (s + 1)) * pow2 (s + 1), ?_, ?_⟩
  · rw [toInt?_eq_some_iff_quantity?, hvalue, signed_mul, zpow_natCast, Int.cast_mul,
      Int.cast_natCast, cast_pow2]
  · calc pow2 53 = pow2 52 * pow2 1 := rfl
      _ ≤ nearestEven n (pow2 (s + 1)) * pow2 (s + 1) :=
        Nat.mul_le_mul hmin (Nat.pow_le_pow_right two_pos (by omega))

theorem ofNat_large (h : pow2 53 ≤ n) : ofNat n = .infinite false ∨
    ∃ i : Nat, (ofNat n).toInt? = some (i : Int) ∧ pow2 53 ≤ i :=
  round_large h

theorem eq_finite_of_toInt? (h : x.toInt? = some k) :
    ∃ m e, x = .finite x.isNegative m e ∧ (signed x.isNegative m * 2 ^ e : ℚ) = k := by
  have hquantity := toInt?_eq_some_iff_quantity?.1 h
  rcases x with _ | negative | ⟨negative, m, e⟩
  · cases h
  · cases h
  · exact ⟨m, e, rfl, by simpa [quantity?, isNegative] using hquantity⟩

theorem natAbs_signed (negative : Bool) (m : Nat) : (signed negative m).natAbs = m := by
  cases negative <;> simp [signed]

/-- A multiple of a power of two and a natural, compared without the power. -/
theorem mul_pow2_eq_iff {e : Int} :
    m * pow2 e.toNat = n * pow2 (-e).toNat ↔ (m * 2 ^ e : ℚ) = n := by
  rw [← pow2_div, ← mul_div_assoc, div_eq_iff (cast_pow2_pos _).ne']
  exact_mod_cast Iff.rfl

theorem roundScaled_eq_round {e : Int} (h : (m * 2 ^ e : ℚ) = n) :
    roundScaled negative m e = round negative n 1 := by
  refine round_congr (pow2_pos _) Nat.one_pos ?_
  rw [Nat.mul_one, mul_pow2_eq_iff.2 h]

theorem signed_mul_signed (a b : Bool) (m n : Nat) :
    signed (a != b) (m * n) = signed a m * signed b n := by
  cases a <;> cases b <;> simp [signed]

/-- A double that is an integer has the size of the integer, and its sign too unless it is zero. -/
theorem exists_magnitude (h : x.toInt? = some k) :
    ∃ m e, x = .finite x.isNegative m e ∧ (m * 2 ^ e : ℚ) = k.natAbs ∧
      signed x.isNegative k.natAbs = k := by
  obtain ⟨m, e, hx, hk⟩ := eq_finite_of_toInt? h
  have hpos : (0 : ℚ) < 2 ^ e := zpow_pos two_pos e
  have hsize : (m * 2 ^ e : ℚ) = k.natAbs := by
    rw [Nat.cast_natAbs, Int.cast_abs, ← hk, abs_mul, abs_of_pos hpos, ← Int.cast_abs,
      ← Nat.cast_natAbs, natAbs_signed]
  refine ⟨m, e, hx, hsize, ?_⟩
  have hcast : ((signed x.isNegative k.natAbs : Int) : ℚ) = k := by
    rw [← hk]
    cases x.isNegative <;> simp only [signed, Bool.false_eq_true, if_true, if_false, Int.cast_neg,
      Int.cast_natCast, neg_mul, hsize]
  exact_mod_cast hcast

theorem signed_of_toInt? (h : x.toInt? = some k) : signed x.isNegative k.natAbs = k := by
  obtain ⟨m, e, -, -, hk⟩ := exists_magnitude h
  exact hk

theorem mantissa_ne_zero {e : Int} (hk : k ≠ 0) (h : (m * 2 ^ e : ℚ) = k.natAbs) : m ≠ 0 := by
  rintro rfl
  rw [Nat.cast_zero, zero_mul] at h
  exact Int.natAbs_ne_zero.2 hk (by exact_mod_cast h.symm)

theorem isZero_eq_false (h : x.toInt? = some k) (hk : k ≠ 0) : x.isZero = false := by
  obtain ⟨m, e, hx, hsize, -⟩ := exists_magnitude h
  rw [hx]
  exact beq_false_of_ne (mantissa_ne_zero hk hsize)

/-- The product of two integers is rounded once. -/
theorem mul_eq_round (hx : x.toInt? = some k) (hy : y.toInt? = some l) :
    mul x y = round (x.isNegative != y.isNegative) (k * l).natAbs 1 := by
  obtain ⟨m, e, hm, hk, -⟩ := exists_magnitude hx
  obtain ⟨n, f, hn, hl, -⟩ := exists_magnitude hy
  generalize x.isNegative = a at *
  generalize y.isNegative = b at *
  subst hm hn
  simp only [mul]
  refine roundScaled_eq_round ?_
  rw [Int.natAbs_mul, Nat.cast_mul, Nat.cast_mul, ← hk, ← hl, zpow_add₀ two_ne_zero]
  ring

/-- A product of two integers that is at most `2 ^ 53` in size is exact. -/
theorem toInt?_mul (hx : x.toInt? = some k) (hy : y.toInt? = some l)
    (hproduct : (k * l).natAbs ≤ pow2 53) : (mul x y).toInt? = some (k * l) := by
  rw [mul_eq_round hx hy, toInt?_round hproduct, Int.natAbs_mul, signed_mul_signed,
    signed_of_toInt? hx, signed_of_toInt? hy]

/-- The sum of two integers is rounded once, unless it is a zero, which has a sign of its own. -/
theorem add_of_toInt? (hx : x.toInt? = some k) (hy : y.toInt? = some l) :
    add x y = if k + l = 0 then signedZero (x.isNegative && y.isNegative) else ofInt (k + l) := by
  obtain ⟨m, e, hm, hk⟩ := eq_finite_of_toInt? hx
  obtain ⟨n, f, hn, hl⟩ := eq_finite_of_toInt? hy
  generalize x.isNegative = a at *
  generalize y.isNegative = b at *
  subst hm hn
  have hleast : (0 : ℚ) < 2 ^ min e f := zpow_pos two_pos _
  have hvalue : ((scaledTo (min e f) a m e + scaledTo (min e f) b n f : Int) : ℚ) * 2 ^ min e f =
      (k + l : Int) := by
    rw [Int.cast_add, add_mul, scaledTo_mul a m (min_le_left e f),
      scaledTo_mul b n (min_le_right e f), hk, hl, Int.cast_add]
  simp only [add]
  generalize scaledTo (min e f) a m e + scaledTo (min e f) b n f = sum at *
  generalize min e f = low at *
  generalize k + l = total at *
  have hzero : sum = 0 ↔ total = 0 := by
    have hcast : (sum : ℚ) = 0 ↔ (total : ℚ) = 0 := by
      rw [← hvalue, mul_eq_zero, or_iff_left hleast.ne']
    exact_mod_cast hcast
  have hsign : sum < 0 ↔ total < 0 := by
    have hcast : (total : ℚ) < 0 ↔ (sum : ℚ) < 0 := by
      rw [← hvalue, ← not_le, ← not_le, mul_nonneg_iff_of_pos_right hleast]
    exact_mod_cast hcast.symm
  refine if_congr hzero rfl ?_
  rw [ofInt, decide_eq_decide.2 hsign]
  refine roundScaled_eq_round ?_
  rw [Nat.cast_natAbs, Nat.cast_natAbs, Int.cast_abs, Int.cast_abs, ← hvalue, abs_mul,
    abs_of_pos hleast]

theorem add_eq_ofInt (hx : x.toInt? = some k) (hy : y.toInt? = some l) (hsum : k + l ≠ 0) :
    add x y = ofInt (k + l) := by
  rw [add_of_toInt? hx hy, if_neg hsum]

/-- A sum of two integers that is at most `2 ^ 53` in size is exact. -/
theorem toInt?_add (hx : x.toInt? = some k) (hy : y.toInt? = some l)
    (hsum : (k + l).natAbs ≤ pow2 53) : (add x y).toInt? = some (k + l) := by
  rw [add_of_toInt? hx hy]
  split
  · next hzero =>
    rw [hzero, toInt?_signedZero]
  · exact toInt?_ofInt hsum

theorem toInt?_neg (h : x.toInt? = some k) : x.neg.toInt? = some (-k) := by
  rw [toInt?_eq_some_iff_quantity?] at h ⊢
  rcases x with _ | negative | ⟨negative, m, e⟩
  · cases h
  · cases h
  · simp only [quantity?, neg, Option.some.injEq, Sum.inr.injEq] at h ⊢
    rw [Int.cast_neg, ← h, ← neg_mul]
    cases negative <;> simp [signed]

/-- A difference of two integers that is at most `2 ^ 53` in size is exact. -/
theorem toInt?_sub (hx : x.toInt? = some k) (hy : y.toInt? = some l)
    (hdifference : (k - l).natAbs ≤ pow2 53) : (sub x y).toInt? = some (k - l) :=
  toInt?_add hx (toInt?_neg hy) hdifference

/-- The quotient of two integers is rounded once. -/
theorem div_eq_round (hx : x.toInt? = some k) (hy : y.toInt? = some l) (hl : l ≠ 0) :
    div x y = round (x.isNegative != y.isNegative) k.natAbs l.natAbs := by
  obtain ⟨m, e, hm, hdividend, -⟩ := exists_magnitude hx
  obtain ⟨n, f, hn, hdivisor, -⟩ := exists_magnitude hy
  generalize x.isNegative = a at *
  generalize y.isNegative = b at *
  subst hm hn
  have hne : n ≠ 0 := mantissa_ne_zero hl hdivisor
  simp only [div, if_neg hne]
  refine round_congr (Nat.mul_pos (Nat.pos_of_ne_zero hne) (pow2_pos _)) (Int.natAbs_pos.2 hl) ?_
  have hshift : (pow2 (e - f).toNat : ℚ) = 2 ^ e / 2 ^ f * pow2 (f - e).toNat := by
    rw [← zpow_sub₀ two_ne_zero, ← pow2_div, neg_sub, div_mul_cancel₀ _ (cast_pow2_pos _).ne']
  have hq : ((m * pow2 (e - f).toNat : Nat) * l.natAbs : ℚ) =
      k.natAbs * (n * pow2 (f - e).toNat : Nat) := by
    rw [Nat.cast_mul, Nat.cast_mul, hshift, ← hdividend, ← hdivisor]
    field_simp
  exact_mod_cast hq

/-- A quotient that is an integer of at most `2 ^ 53` in size is exact. -/
theorem toInt?_div (hx : x.toInt? = some (l * k)) (hy : y.toInt? = some l) (hl : l ≠ 0)
    (hquotient : k.natAbs ≤ pow2 53) : (div x y).toInt? = some k := by
  have hround : div x y = round (x.isNegative != y.isNegative) k.natAbs 1 := by
    rw [div_eq_round hx hy hl]
    refine round_congr (Int.natAbs_pos.2 hl) Nat.one_pos ?_
    rw [Nat.mul_one, Int.natAbs_mul, Nat.mul_comm]
  -- The quotient has the right sign because its product with the divisor has that of the dividend.
  have hsign : signed (x.isNegative != y.isNegative) k.natAbs * l = k * l :=
    calc signed (x.isNegative != y.isNegative) k.natAbs * l
        = signed ((x.isNegative != y.isNegative) != y.isNegative) (k.natAbs * l.natAbs) := by
          rw [signed_mul_signed, signed_of_toInt? hy]
      _ = signed x.isNegative (l * k).natAbs := by
          rw [Bool.bne_assoc, bne_self_eq_false, Bool.bne_false, Int.natAbs_mul, Nat.mul_comm]
      _ = k * l := by rw [signed_of_toInt? hx, Int.mul_comm]
  rw [hround, toInt?_round hquotient, mul_right_cancel₀ hl hsign]

theorem natCast_scaled (m : Nat) {e low : Int} (h : low ≤ e) :
    ((m * pow2 (e - low).toNat : Nat) * 2 ^ low : ℚ) = m * 2 ^ e := by
  simpa [scaledTo, signed] using scaledTo_mul false m h

/-- The remainder of two integers is rounded once. -/
theorem rem_eq_round (hx : x.toInt? = some k) (hy : y.toInt? = some l) (hl : l ≠ 0) :
    rem x y = round x.isNegative (k.natAbs % l.natAbs) 1 := by
  obtain ⟨m, e, hm, hdividend, -⟩ := exists_magnitude hx
  obtain ⟨n, f, hn, hdivisor, -⟩ := exists_magnitude hy
  generalize x.isNegative = a at *
  generalize y.isNegative = b at *
  subst hm hn
  simp only [rem, if_neg (mantissa_ne_zero hl hdivisor)]
  rw [← natCast_scaled m (min_le_left e f)] at hdividend
  rw [← natCast_scaled n (min_le_right e f)] at hdivisor
  generalize min e f = low at *
  -- Both are integers in the same units, and a remainder keeps a common factor.
  refine roundScaled_eq_round (mul_pow2_eq_iff.1 ?_)
  rw [← Nat.mul_mod_mul_right, ← Nat.mul_mod_mul_right, mul_pow2_eq_iff.2 hdividend,
    mul_pow2_eq_iff.2 hdivisor]

theorem signed_natAbs_mod (h : signed negative k.natAbs = k) (l : Int) :
    signed negative (k.natAbs % l.natAbs) = k.tmod l := by
  have hsize : (k.tmod l).natAbs = k.natAbs % l.natAbs := Int.natAbs_tmod k l
  rw [← hsize]
  cases negative with
  | false =>
    simp only [signed, Bool.false_eq_true, if_false] at h ⊢
    have hsign : 0 ≤ k.tmod l := Int.tmod_nonneg l (by omega)
    omega
  | true =>
    simp only [signed, if_true] at h ⊢
    have hsign : 0 ≤ (-k).tmod l := Int.tmod_nonneg l (by omega)
    rw [Int.neg_tmod] at hsign
    omega

/-- A remainder of two integers that is at most `2 ^ 53` in size is exact. -/
theorem toInt?_rem (hx : x.toInt? = some k) (hy : y.toInt? = some l) (hl : l ≠ 0)
    (hremainder : (k.tmod l).natAbs ≤ pow2 53) : (rem x y).toInt? = some (k.tmod l) := by
  rw [Int.natAbs_tmod] at hremainder
  rw [rem_eq_round hx hy hl, toInt?_round hremainder, signed_natAbs_mod (signed_of_toInt? hx)]

/-- Integers compare as doubles as they do as integers. -/
theorem compare?_of_toInt? (hx : x.toInt? = some k) (hy : y.toInt? = some l) :
    x.compare? y = some (compare k l) := by
  obtain ⟨m, e, hm, hk⟩ := eq_finite_of_toInt? hx
  obtain ⟨n, f, hn, hl⟩ := eq_finite_of_toInt? hy
  generalize x.isNegative = a at *
  generalize y.isNegative = b at *
  subst hm hn
  have hleast : (0 : ℚ) < 2 ^ min e f := zpow_pos two_pos _
  rw [← scaledTo_mul a m (min_le_left e f)] at hk
  rw [← scaledTo_mul b n (min_le_right e f)] at hl
  simp only [compare?]
  generalize scaledTo (min e f) a m e = i at *
  generalize scaledTo (min e f) b n f = j at *
  rw [← cmp_eq_compare, ← cmp_eq_compare, ← Int.cast_strictMono (R := ℚ) |>.cmp_map_eq i j,
    ← Int.cast_strictMono (R := ℚ) |>.cmp_map_eq k l, ← hk, ← hl, cmp_mul_pos_right hleast]

/-- An integer below zero is below zero as a double, however it is rounded. -/
theorem ofInt_compare?_zero (h : k < 0) : (ofInt k).compare? (signedZero false) = some .lt := by
  have hbelow {i : Int} (hi : i < 0) : compare i 0 = .lt := compare_lt_iff_lt.2 hi
  rcases Nat.le_total k.natAbs (pow2 53) with hsmall | hlarge
  · rw [compare?_of_toInt? (toInt?_ofInt hsmall) (toInt?_signedZero false), hbelow h]
  · rw [ofInt, decide_eq_true h]
    rcases round_large hlarge with hinf | ⟨i, hi, hle⟩
    · rw [hinf]
      rfl
    · have hpos : 0 < i := (pow2_pos 53).trans_le hle
      have hneg : signed true i < 0 := by
        simp only [signed, if_true]
        omega
      rw [compare?_of_toInt? hi (toInt?_signedZero false), hbelow hneg]

end SigilExpr.Binary64
