import SigilExpr.Proofs.Binary64.Integers

/-!
# Rounding after every digit

A row of hexadecimal digits can be turned into a double from the left: sixteen times what stands
before, and the digit, each rounded. Up to 53 bits nothing is lost. The first digit beyond them is
rounded into the mantissa, and every later digit is less than half a unit of it, so that it is
dropped. The result is the double nearest to the natural that has zeros for these later digits. It
is NOT always the one nearest to the natural itself: the later digits would have decided a tie.
-/

set_option autoImplicit false

namespace SigilExpr

theorem pow2_le_pow2 {i j : Nat} (h : i ≤ j) : pow2 i ≤ pow2 j := Nat.pow_le_pow_right two_pos h

theorem pow2_lt_pow2_iff {i j : Nat} : pow2 i < pow2 j ↔ i < j :=
  Nat.pow_lt_pow_iff_right (by decide)

theorem sixteen_pow (k : Nat) : 16 ^ k = pow2 (4 * k) := Nat.pow_mul 2 4 k |>.symm

/-- A natural is rounded by what it has beyond its units. -/
theorem nearestEven_add {q u r : Nat} (hr : r < u) : nearestEven (q * u + r) u =
    if 2 * r < u then q else if u < 2 * r then q + 1 else q + q % 2 := by
  have hq : (q * u + r) / u = q := by
    rw [Nat.mul_comm, Nat.mul_add_div (Nat.zero_lt_of_lt hr), Nat.div_eq_of_lt hr, Nat.add_zero]
  have hmod : (q * u + r) % u = r := by rw [Nat.mul_add_mod_self_right, Nat.mod_eq_of_lt hr]
  simp only [nearestEven, hq, hmod]

/-- What follows the digits of a natural counts for its rounding only if the digits are halfway
between two units, the lower one of which is even. -/
theorem nearestEven_append {c h s b r : Nat} (hs : s < 2 * h) (hr : r < b) :
    nearestEven ((c * (2 * h) + s) * b + r) (2 * h * b) =
      if (s = h ∧ c % 2 = 0) ∧ r ≠ 0 then c + 1 else nearestEven (c * (2 * h) + s) (2 * h) := by
  have hshift {i j : Nat} (hij : i < j) : i * b + b ≤ j * b := by
    rw [← Nat.succ_mul]
    exact Nat.mul_le_mul_right b hij
  have hlt := hshift hs
  have hsplit : (c * (2 * h) + s) * b + r = c * (2 * h * b) + (s * b + r) := by ring
  rw [hsplit, nearestEven_add (show s * b + r < 2 * h * b by omega), nearestEven_add hs,
    Nat.mul_assoc]
  rcases Nat.lt_trichotomy s h with hsh | rfl | hsh
  · have hle := hshift hsh
    rw [if_pos (show 2 * (s * b + r) < 2 * (h * b) by omega),
      if_pos (show 2 * s < 2 * h by omega), if_neg (by omega)]
  · rw [if_neg (show ¬ 2 * (s * b + r) < 2 * (s * b) by omega), if_neg (Nat.lt_irrefl (2 * s)),
      if_neg (Nat.lt_irrefl (2 * s))]
    by_cases hzero : r = 0
    · simp [hzero]
    · rw [if_pos (show 2 * (s * b) < 2 * (s * b + r) by omega)]
      split <;> omega
  · have hle := hshift hsh
    rw [if_neg (show ¬ 2 * (s * b + r) < 2 * (h * b) by omega),
      if_pos (show 2 * (h * b) < 2 * (s * b + r) by omega), if_neg (show ¬ 2 * s < 2 * h by omega),
      if_pos (show 2 * h < 2 * s by omega), if_neg (by omega)]

theorem nearestEven_block {n h b : Nat} (hh : 0 < h) (hb : 0 < b) : nearestEven n (2 * h * b) =
    if (n / b % (2 * h) = h ∧ n / b / (2 * h) % 2 = 0) ∧ n % b ≠ 0 then n / b / (2 * h) + 1
    else nearestEven (n / b) (2 * h) := by
  have hunit : 0 < 2 * h := by omega
  have happend := nearestEven_append (c := n / b / (2 * h)) (Nat.mod_lt (n / b) hunit)
    (Nat.mod_lt n hb)
  rwa [Nat.div_add_mod', Nat.div_add_mod'] at happend

/-- A tie above an even quotient goes down. -/
theorem nearestEven_half {p h : Nat} (hhalf : p % (2 * h) = h) (heven : p / (2 * h) % 2 = 0) :
    nearestEven p (2 * h) = p / (2 * h) := by
  simp only [nearestEven, hhalf, heven, lt_irrefl, if_false, Nat.add_zero]

namespace Binary64

variable {negative : Bool} {n p q s t d k : Nat}

theorem isNegative_ofNat (n : Nat) : (ofNat n).isNegative = false := (unsigned_ofNat n).2

/-- A natural of more than 53 bits, with zeros behind it, is rounded as the natural is. -/
theorem ofNat_mul_pow2 (hlow : pow2 (52 + s) ≤ p) (hhigh : p < pow2 (53 + s)) (t : Nat) :
    ofNat (p * pow2 t) = ofUnits false (nearestEven p (pow2 s)) ((s + t : Nat) : Int) := by
  have hpos : 0 < pow2 t := pow2_pos t
  have hround : ofNat (p * pow2 t) =
      ofUnits false (nearestEven (p * pow2 t) (pow2 (s + t))) ((s + t : Nat) : Int) :=
    round_natural
      (by rw [← Nat.add_assoc, pow2_add]; exact Nat.mul_le_mul_right _ hlow)
      (by rw [← Nat.add_assoc, pow2_add]; exact Nat.mul_lt_mul_of_pos_right hhigh hpos)
  rw [hround, nearestEven_congr (pow2_pos _) (pow2_pos s)]
  rw [pow2_add, Nat.mul_assoc, Nat.mul_comm (pow2 t)]

theorem ofNat_mul_sixteen_pow (hlow : pow2 (52 + s) ≤ p) (hhigh : p < pow2 (53 + s)) (k : Nat) :
    ofNat (p * 16 ^ k) = ofUnits false (nearestEven p (pow2 s)) ((s + 4 * k : Nat) : Int) := by
  rw [sixteen_pow, ofNat_mul_pow2 hlow hhigh]

theorem ofNat_units (hlow : pow2 52 ≤ q) (hhigh : q ≤ pow2 53) (t : Nat) :
    ofNat (q * pow2 t) = ofUnits false q t := by
  rcases Nat.eq_or_lt_of_le hhigh with rfl | hlt
  · have hfull := ofNat_mul_pow2 (s := 1) (p := pow2 53) le_rfl (pow2_lt_pow2_iff.2 (by decide)) t
    rw [hfull, ofUnits_full, nearestEven_of_dvd (pow2_pos 1) (by decide), Nat.add_comm]
    rfl
  · have hunits := ofNat_mul_pow2 (s := 0) (p := q) hlow hlt t
    rw [hunits, pow2_zero, nearestEven_of_dvd Nat.one_pos (Nat.mod_one q), Nat.div_one,
      Nat.zero_add]

/-- A natural behind a mantissa that fills its units is dropped if it is less than half of one. -/
theorem ofNat_units_add (hlow : pow2 52 ≤ q) (hhigh : q ≤ pow2 53) (hd : 2 * d < pow2 t) :
    ofNat (q * pow2 t + d) = ofNat (q * pow2 t) := by
  have hbelow {q t : Nat} (hlow : pow2 52 ≤ q) (hhigh : q < pow2 53) (hd : 2 * d < pow2 t) :
      ofNat (q * pow2 t + d) = ofNat (q * pow2 t) := by
    have hle : q * pow2 t + pow2 t ≤ pow2 53 * pow2 t := by
      rw [← Nat.succ_mul]
      exact Nat.mul_le_mul_right _ hhigh
    have hround : ofNat (q * pow2 t + d) =
        ofUnits false (nearestEven (q * pow2 t + d) (pow2 t)) t :=
      round_natural
        (by rw [pow2_add]; exact (Nat.mul_le_mul_right _ hlow).trans (Nat.le_add_right _ _))
        (by rw [pow2_add]; omega)
    rw [ofNat_units hlow hhigh.le, hround, nearestEven_add (by omega), if_pos hd]
  rcases Nat.eq_or_lt_of_le hhigh with rfl | hlt
  · have hdouble : pow2 53 * pow2 t = pow2 52 * pow2 (t + 1) := by
      rw [← pow2_add, ← pow2_add]
      congr 1
      omega
    rw [hdouble]
    exact hbelow le_rfl (pow2_lt_pow2_iff.2 (by decide)) (by rw [pow2_succ]; omega)
  · exact hbelow hlow hlt hd

theorem ofUnits_infinite_of_le {e f : Int} (h : ofUnits negative q e = .infinite negative)
    (hef : e ≤ f) : ofUnits negative q f = .infinite negative := by
  unfold ofUnits at h ⊢
  by_cases hfull : q = pow2 53
  · rw [if_pos hfull] at h ⊢
    dsimp only at h ⊢
    split at h
    · exact if_pos (by omega)
    · cases h
  · rw [if_neg hfull] at h ⊢
    dsimp only at h ⊢
    split at h
    · exact if_pos (by omega)
    · cases h

/-- The product of two naturals that are doubles is rounded once. -/
theorem mul_ofNat {a b : Nat} (ha : (ofNat a).toInt? = some (a : Int))
    (hb : (ofNat b).toInt? = some (b : Int)) : mul (ofNat a) (ofNat b) = ofNat (a * b) := by
  rw [mul_eq_round ha hb, isNegative_ofNat, isNegative_ofNat, ← Int.natCast_mul, Int.natAbs_natCast]
  rfl

theorem add_ofNat {a b : Nat} (ha : (ofNat a).toInt? = some (a : Int))
    (hb : (ofNat b).toInt? = some (b : Int)) : add (ofNat a) (ofNat b) = ofNat (a + b) := by
  by_cases hsum : a + b = 0
  · obtain ⟨rfl, rfl⟩ := Nat.add_eq_zero_iff.1 hsum
    rfl
  · rw [add_eq_ofInt ha hb (by omega), ← Int.natCast_add, ofInt_natCast]

/-- Sixteen times a number, and a digit, each rounded. -/
def pushDigit (x : Binary64) (d : Nat) : Binary64 := (x.mul (.ofNat 16)).add (.ofNat d)

section

variable (hd : d < 16)
include hd

theorem toInt?_digit : (ofNat d).toInt? = some (d : Int) :=
  toInt?_ofNat (hd.le.trans (Nat.le_of_ble_eq_true rfl))

theorem pushDigit_infinite : pushDigit (.infinite false) d = .infinite false := by
  obtain ⟨m, e, hm, -⟩ := eq_finite_of_toInt? (toInt?_digit hd)
  rw [pushDigit, hm]
  rfl

/-- Up to 53 bits nothing is lost before the digit comes. -/
theorem pushDigit_short (hn : n < pow2 53) : pushDigit (ofNat n) d = ofNat (16 * n + d) := by
  have hsixteen : (ofNat 16).toInt? = some ((16 : Nat) : Int) := toInt?_ofNat (by decide)
  have hshifted : (ofNat (n * 16)).toInt? = some ((n * 16 : Nat) : Int) :=
    toInt?_round_mul (t := 4) hn.le (by decide)
  rw [pushDigit, mul_ofNat (toInt?_ofNat hn.le) hsixteen, add_ofNat hshifted (toInt?_digit hd),
    Nat.mul_comm]

/-- A digit behind a full mantissa is dropped. -/
theorem pushDigit_full (hlow : pow2 52 ≤ q) (hhigh : q ≤ pow2 53) (ht : 1 ≤ t) :
    pushDigit (ofUnits false q t) d = ofUnits false q ((t + 4 : Nat) : Int) := by
  have hvalue (t : Nat) : ofUnits false q t = .infinite false ∨
      (ofNat (q * pow2 t)).toInt? = some ((q * pow2 t : Nat) : Int) := by
    rw [ofNat_units hlow hhigh]
    refine (quantity?_ofUnits hhigh _).imp_right ?_
    intro h
    rw [toInt?_eq_some_iff_quantity?, h]
    simp [signed, cast_pow2]
  rcases hvalue t with hinf | hexact
  · rw [ofUnits_infinite_of_le (f := ((t + 4 : Nat) : Int)) hinf (by omega), hinf,
      pushDigit_infinite hd]
  · have hsixteen : (ofNat 16).toInt? = some ((16 : Nat) : Int) := toInt?_ofNat (by decide)
    have hunits : q * pow2 t * 16 = q * pow2 (t + 4) := by rw [pow2_add, Nat.mul_assoc]; rfl
    rw [pushDigit, ← ofNat_units hlow hhigh, mul_ofNat hexact hsixteen, hunits]
    rcases hvalue (t + 4) with hinf | hshifted
    · obtain ⟨m, e, hm, -⟩ := eq_finite_of_toInt? (toInt?_digit hd)
      rw [ofNat_units hlow hhigh, hinf, hm]
      rfl
    · have hhalf : 2 * d < pow2 (t + 4) :=
        calc 2 * d < pow2 (1 + 4) := by change _ < 32; omega
          _ ≤ pow2 (t + 4) := pow2_le_pow2 (by omega)
      rw [add_ofNat hshifted (toInt?_digit hd), ofNat_units_add hlow hhigh hhalf,
        ofNat_units hlow hhigh]

end

/-- The digits of `n` before the last `k` are all, or they are the first ones that have more than 53
bits. -/
def Fills (n k : Nat) : Prop := n / 16 ^ (k + 1) < pow2 53 ∧ (k = 0 ∨ pow2 53 ≤ n / 16 ^ k)

theorem exists_units (hlow : pow2 53 ≤ p) (hhigh : p / 16 < pow2 53) :
    ∃ i, i < 4 ∧ pow2 (52 + (i + 1)) ≤ p ∧ p < pow2 (53 + (i + 1)) := by
  have hp : p ≠ 0 := ((pow2_pos 53).trans_le hlow).ne'
  have hbound : p < pow2 53 * 16 := (Nat.div_lt_iff_lt_mul (by decide)).1 hhigh
  have hlog : 53 ≤ p.log2 := (Nat.le_log2 hp).2 hlow
  have hlog' : p.log2 < 57 := (Nat.log2_lt hp).2 hbound
  obtain ⟨i, hi⟩ := Nat.exists_eq_add_of_le hlog
  refine ⟨i, by omega, ?_, ?_⟩
  · rw [show 52 + (i + 1) = p.log2 by omega]
    exact Nat.log2_self_le hp
  · rw [show 53 + (i + 1) = p.log2 + 1 by omega]
    exact Nat.lt_log2_self

theorem Fills.exists_units (h : Fills n k) (hlow : pow2 53 ≤ n / 16 ^ k) :
    ∃ i, i < 4 ∧ pow2 (52 + (i + 1)) ≤ n / 16 ^ k ∧ n / 16 ^ k < pow2 (53 + (i + 1)) := by
  refine Binary64.exists_units hlow ?_
  rw [Nat.div_div_eq_div_mul, ← pow_succ]
  exact h.1

/-- One more digit: it counts as long as there is room for it, and is dropped then. -/
theorem Fills.push (h : Fills n k) (hd : d < 16) :
    ∃ l, Fills (16 * n + d) l ∧ pushDigit (ofNat (n / 16 ^ k * 16 ^ k)) d =
      ofNat ((16 * n + d) / 16 ^ l * 16 ^ l) := by
  have hshift (i : Nat) : (16 * n + d) / 16 ^ (i + 1) = n / 16 ^ i := by
    rw [Nat.pow_succ', ← Nat.div_div_eq_div_mul, Nat.mul_add_div (by decide),
      Nat.div_eq_of_lt hd, Nat.add_zero]
  by_cases hlow : pow2 53 ≤ n / 16 ^ k
  · refine ⟨k + 1, ⟨(hshift (k + 1)).trans_lt h.1, .inr (hlow.trans_eq (hshift k).symm)⟩, ?_⟩
    obtain ⟨i, -, hlow, hhigh⟩ := h.exists_units hlow
    have hunit : 0 < pow2 (i + 1) := pow2_pos _
    have hfull := le_nearestEven hunit ((pow2_add 52 (i + 1)).symm.trans_le hlow)
    have hmax := nearestEven_le hunit (hhigh.trans_eq (pow2_add 53 (i + 1)))
    rw [hshift, ofNat_mul_sixteen_pow hlow hhigh, ofNat_mul_sixteen_pow hlow hhigh,
      pushDigit_full hd hfull hmax (by omega)]
    rfl
  · obtain rfl : k = 0 := h.2.resolve_right hlow
    have hn : n < pow2 53 := by simpa using hlow
    refine ⟨0, ⟨by rw [hshift]; simpa using hn, .inl rfl⟩, ?_⟩
    simpa using pushDigit_short hd hn

theorem fills_zero : Fills 0 0 := ⟨by simp [pow2_pos], .inl rfl⟩

/-- Digits read from the left give the number that has zeros for the digits that come too late. -/
theorem Fills.pushDigits {ds : List Nat} (hds : ∀ d ∈ ds, d < 16) (h : Fills n k) :
    ∃ l, Fills (ds.foldl (16 * · + ·) n) l ∧ ds.foldl pushDigit (ofNat (n / 16 ^ k * 16 ^ k)) =
      ofNat (ds.foldl (16 * · + ·) n / 16 ^ l * 16 ^ l) := by
  induction ds generalizing n k with
  | nil => exact ⟨k, h, rfl⟩
  | cons d ds ih =>
    obtain ⟨hd, hds⟩ := List.forall_mem_cons.1 hds
    obtain ⟨l, hl, hpush⟩ := h.push hd
    rw [List.foldl_cons, List.foldl_cons, hpush]
    exact ih hds hl

/-- The digits of `n` that fill the mantissa have 54 bits and zeros behind them, the last two of the
54 bits are `01`, and other digits than zero follow. So `n` is above a tie that goes down. -/
def AboveTie (n : Nat) : Prop :=
  ∃ k i t, n / 16 ^ k = t * pow2 i ∧ i < 4 ∧ pow2 53 ≤ t ∧ t < pow2 54 ∧ t % 4 = 1 ∧ n % 16 ^ k ≠ 0

theorem ofUnits_succ_eq_iff (hq : q + 1 < pow2 53) (e : Int) :
    ofUnits negative (q + 1) e = ofUnits negative q e ↔ maxExponent < e := by
  unfold ofUnits
  rw [if_neg (by omega), if_neg (by omega)]
  dsimp only
  split
  · next h => simp [h]
  · next h => simp [h]

/-- The places that fill the mantissa are the ones where the natural has more than 53 bits first. -/
theorem Fills.eq_of_bounds {l : Nat} (h : Fills n k) (hk : pow2 53 ≤ n / 16 ^ k)
    (hlow : pow2 53 ≤ n / 16 ^ l) (hhigh : n / 16 ^ (l + 1) < pow2 53) : l = k := by
  have hle {i j : Nat} (hij : i ≤ j) : n / 16 ^ j ≤ n / 16 ^ i :=
    Nat.div_le_div_left (Nat.pow_le_pow_right (by decide) hij) (by positivity)
  rcases Nat.lt_trichotomy l k with hlt | rfl | hlt
  · have := hle (i := l + 1) (j := k) hlt
    omega
  · rfl
  · have := hle (i := k + 1) (j := l) hlt
    have := h.1
    omega

/-- A natural of 54 bits with zeros behind it tells how many there are. -/
theorem exponent_unique {i j : Nat} (hi : pow2 53 * pow2 i ≤ p ∧ p < pow2 54 * pow2 i)
    (hj : pow2 53 * pow2 j ≤ p ∧ p < pow2 54 * pow2 j) : i = j := by
  simp only [← pow2_add] at hi hj
  have hij : 53 + i < 54 + j := pow2_lt_pow2_iff.1 (hi.1.trans_lt hj.2)
  have hji : 53 + j < 54 + i := pow2_lt_pow2_iff.1 (hj.1.trans_lt hi.2)
  omega

/-- The last bits are `01` and zeros exactly if what they leave is half a unit above an even one. -/
theorem exists_odd_iff {h : Nat} (hh : 0 < h) :
    (∃ t, p = t * h ∧ t % 4 = 1) ↔ p % (2 * h) = h ∧ p / (2 * h) % 2 = 0 := by
  have hsmall : h < 2 * h := by omega
  constructor
  · rintro ⟨t, rfl, ht⟩
    have hsplit : t * h = h + 2 * h * (t / 2) := by
      have hodd : t = 2 * (t / 2) + 1 := by omega
      calc t * h = (2 * (t / 2) + 1) * h := by rw [← hodd]
        _ = h + 2 * h * (t / 2) := by ring
    rw [hsplit, Nat.add_mul_mod_self_left, Nat.mod_eq_of_lt hsmall,
      Nat.add_mul_div_left _ _ (hh.trans hsmall), Nat.div_eq_of_lt hsmall]
    exact ⟨rfl, by omega⟩
  · rintro ⟨hhalf, heven⟩
    refine ⟨2 * (p / (2 * h)) + 1, ?_, by omega⟩
    calc p = 2 * h * (p / (2 * h)) + p % (2 * h) := (Nat.div_add_mod p (2 * h)).symm
      _ = 2 * h * (p / (2 * h)) + h := by rw [hhalf]
      _ = (2 * (p / (2 * h)) + 1) * h := by ring

theorem Fills.aboveTie_iff {i : Nat} (h : Fills n k) (hi : i < 4)
    (hbits : pow2 53 * pow2 i ≤ n / 16 ^ k ∧ n / 16 ^ k < pow2 54 * pow2 i) :
    AboveTie n ↔ (n / 16 ^ k % (2 * pow2 i) = pow2 i ∧ n / 16 ^ k / (2 * pow2 i) % 2 = 0) ∧
      n % 16 ^ k ≠ 0 := by
  rw [← exists_odd_iff (pow2_pos i)]
  constructor
  · rintro ⟨l, j, t, hl, hj, htlow, hthigh, ht, hrest⟩
    have hlow : pow2 53 * pow2 j ≤ n / 16 ^ l := hl ▸ Nat.mul_le_mul_right _ htlow
    have hhigh : n / 16 ^ l < pow2 54 * pow2 j :=
      hl ▸ Nat.mul_lt_mul_of_pos_right hthigh (pow2_pos j)
    have hupper : n / 16 ^ l < 16 * pow2 53 :=
      calc n / 16 ^ l < pow2 54 * pow2 j := hhigh
        _ ≤ pow2 54 * pow2 3 := Nat.mul_le_mul_left _ (pow2_le_pow2 (by omega))
        _ = 16 * pow2 53 := by decide
    obtain rfl : l = k := by
      refine h.eq_of_bounds ?_ ?_ ?_
      · exact (Nat.le_mul_of_pos_right _ (pow2_pos i)).trans hbits.1
      · exact (Nat.le_mul_of_pos_right _ (pow2_pos j)).trans hlow
      · rw [pow_succ, ← Nat.div_div_eq_div_mul]
        exact Nat.div_lt_of_lt_mul hupper
    obtain rfl : j = i := exponent_unique ⟨hlow, hhigh⟩ hbits
    exact ⟨⟨t, hl, ht⟩, hrest⟩
  · rintro ⟨⟨t, ht, hmod⟩, hrest⟩
    rw [ht] at hbits
    exact ⟨k, i, t, ht, hi, Nat.le_of_mul_le_mul_right hbits.1 (pow2_pos i),
      Nat.lt_of_mul_lt_mul_right hbits.2, hmod, hrest⟩

theorem lt_pow2_iff_exponent (hlow : pow2 (52 + s) ≤ n) (hhigh : n < pow2 (53 + s)) :
    n < pow2 1024 ↔ ¬ maxExponent < (s : Int) := by
  unfold maxExponent
  constructor
  · intro hlt
    have := pow2_lt_pow2_iff.1 (hlow.trans_lt hlt)
    omega
  · intro hle
    exact hhigh.trans_le (pow2_le_pow2 (by omega))

/-- Zeros for the digits that come too late give the double nearest to the natural, unless these
digits put the natural above a tie. -/
theorem Fills.ofNat_eq_iff (h : Fills n k) (hk : pow2 53 ≤ n / 16 ^ k) :
    ofNat (n / 16 ^ k * 16 ^ k) = ofNat n ↔ ¬ (n < pow2 1024 ∧ AboveTie n) := by
  obtain ⟨i, hi, hlow, hhigh⟩ := h.exists_units hk
  have hblock : 0 < 16 ^ k := by positivity
  have hbits : pow2 53 * pow2 i ≤ n / 16 ^ k ∧ n / 16 ^ k < pow2 54 * pow2 i := by
    rw [← pow2_add, ← pow2_add, show 53 + i = 52 + (i + 1) by omega,
      show 54 + i = 53 + (i + 1) by omega]
    exact ⟨hlow, hhigh⟩
  have hlow' : pow2 (52 + (i + 1 + 4 * k)) ≤ n := by
    rw [← Nat.add_assoc, pow2_add, ← sixteen_pow]
    exact (Nat.le_div_iff_mul_le hblock).1 hlow
  have hhigh' : n < pow2 (53 + (i + 1 + 4 * k)) := by
    rw [← Nat.add_assoc, pow2_add, ← sixteen_pow]
    exact (Nat.div_lt_iff_lt_mul hblock).1 hhigh
  have hhalf : pow2 (i + 1) = 2 * pow2 i := Nat.mul_comm _ _
  have hunits : pow2 (i + 1 + 4 * k) = 2 * pow2 i * 16 ^ k := by
    rw [pow2_add, hhalf, sixteen_pow]
  rw [h.aboveTie_iff hi hbits, ofNat_mul_sixteen_pow hlow hhigh, ofNat, round_natural hlow' hhigh',
    hunits, nearestEven_block (pow2_pos i) hblock, lt_pow2_iff_exponent hlow' hhigh', hhalf]
  split
  · next habove =>
    -- The quotient is even, so that the next one is not a full mantissa.
    have hroom : n / 16 ^ k / (2 * pow2 i) + 1 < pow2 53 := by
      have hlt : n / 16 ^ k / (2 * pow2 i) < pow2 53 := by
        rw [← hhalf]
        exact Nat.div_lt_of_lt_mul (hhigh.trans_eq (by rw [← pow2_add, Nat.add_comm]))
      have hpow : pow2 53 = 2 * pow2 52 := Nat.mul_comm _ _
      have heven := habove.1.2
      omega
    rw [nearestEven_half habove.1.1 habove.1.2, eq_comm, ofUnits_succ_eq_iff hroom]
    simp [habove]
  · next habove => simp [habove]

end Binary64

end SigilExpr
