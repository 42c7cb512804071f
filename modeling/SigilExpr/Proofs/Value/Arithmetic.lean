import SigilExpr.Proofs.Value.Integers

/-!
# Arithmetic on integers

The operators of arithmetic compute in double precision, and their results are made integers again.
On integers of at most `2 ^ 53` in size they are the operations on integers, whichever of its two
forms an operand has, as long as the result is such an integer too. A remainder is one in any case.
A zero that comes out with a minus sign is the integer zero like any other.
-/

set_option autoImplicit false

namespace SigilExpr

/-- What a division of `a` by `b` leaves: it is smaller in size than the divisor, and it has the sign
of the dividend unless it is zero. -/
structure IsRemainder (a b r : Int) : Prop where
  dvd : b ∣ a - r
  small : r.natAbs < b.natAbs
  sign : r = 0 ∨ r.sign = a.sign

variable {a b n : Int}

theorem isRemainder_tmod (a : Int) (hb : b ≠ 0) : IsRemainder a b (a.tmod b) where
  dvd := ⟨a.tdiv b, by rw [Int.tmod_def, Int.sub_sub_self]⟩
  small := by
    rw [Int.natAbs_tmod]
    exact Nat.mod_lt _ (Int.natAbs_pos.2 hb)
  sign := by
    rcases Int.lt_trichotomy a 0 with ha | rfl | ha
    · have hsign : 0 ≤ (-a).tmod b := Int.tmod_nonneg b (by omega)
      rw [Int.neg_tmod] at hsign
      rcases Int.lt_or_eq_of_le (Int.neg_nonneg.1 hsign) with hr | hr
      · exact .inr (by rw [Int.sign_eq_neg_one_of_neg hr, Int.sign_eq_neg_one_of_neg ha])
      · exact .inl hr
    · exact .inl (Int.zero_tmod b)
    · rcases Int.lt_or_eq_of_le (Int.tmod_nonneg b ha.le) with hr | hr
      · exact .inr (by rw [Int.sign_eq_one_of_pos hr, Int.sign_eq_one_of_pos ha])
      · exact .inl hr.symm

namespace Value

variable {v w : Value} {f : Binary64 → Binary64 → Binary64}

/-- An operation that is exact on two integers as doubles is exact on them as values. -/
theorem IsInteger.arithmetic_eq (hv : v.IsInteger a) (hw : w.IsInteger b)
    (hf : ∀ {x y : Binary64}, x.toInt? = some a → y.toInt? = some b → (f x y).toInt? = some n)
    (hn : n.natAbs ≤ pow2 53) : arithmetic f v w = .ok (.int n) := by
  obtain ⟨x, hvx, hx⟩ := hv.toNumber
  obtain ⟨y, hwy, hy⟩ := hw.toNumber
  rw [arithmetic, hvx, hwy]
  exact ofResult_of_toInt? (hf hx hy) hn

theorem IsInteger.divide_eq (hv : v.IsInteger a) (hw : w.IsInteger b) (hb : b ≠ 0)
    (hf : ∀ {x y : Binary64}, x.toInt? = some a → y.toInt? = some b → (f x y).toInt? = some n)
    (hn : n.natAbs ≤ pow2 53) (zero : ArithmeticFault) : divide f zero v w = .ok (.int n) := by
  obtain ⟨x, hvx, hx⟩ := hv.toNumber
  obtain ⟨y, hwy, hy⟩ := hw.toNumber
  have hresult : ofResult (f x y) = .ok (.int n) := ofResult_of_toInt? (hf hx hy) hn
  rw [divide, hvx, hwy]
  simpa [bind, Except.bind, Binary64.isZero_eq_false hy hb] using hresult

theorem IsInteger.add_eq (hv : v.IsInteger a) (hw : w.IsInteger b)
    (h : (a + b).natAbs ≤ pow2 53) : v.applyBinary .add w = .ok (.int (a + b)) := by
  have hstring : ¬ (v.kind = .string ∨ w.kind = .string) := by
    rw [hv.kind_eq, hw.kind_eq]
    decide
  rw [applyBinary, if_neg hstring]
  exact hv.arithmetic_eq hw (fun hx hy => Binary64.toInt?_add hx hy h) h

theorem IsInteger.mod_eq (hv : v.IsInteger a) (hw : w.IsInteger b) (hb : b ≠ 0) :
    v.applyBinary .mod w = .ok (.int (a.tmod b)) := by
  have hsmall : (a.tmod b).natAbs ≤ pow2 53 := by
    rw [Int.natAbs_tmod]
    exact (Nat.mod_le _ _).trans hv.natAbs_le
  exact hv.divide_eq hw hb (fun hx hy => Binary64.toInt?_rem hx hy hb hsmall) hsmall _

theorem IsInteger.div_eq (hv : v.IsInteger (b * n)) (hw : w.IsInteger b) (hb : b ≠ 0) :
    v.applyBinary .div w = .ok (.int n) := by
  have hsmall : n.natAbs ≤ pow2 53 := by
    refine Nat.le_trans (Nat.le_mul_of_pos_left _ (Int.natAbs_pos.2 hb)) ?_
    rw [← Int.natAbs_mul]
    exact hv.natAbs_le
  exact hv.divide_eq hw hb (fun hx hy => Binary64.toInt?_div hx hy hb hsmall) hsmall _

/--
On integers of at most `2 ^ 53` in size, in either form, sums, differences and products that are at
most `2 ^ 53` in size are exact integers. So are remainders, which have the sign of the dividend,
quotients without a remainder, and an operand with its sign changed or kept.
-/
theorem arithmetic_is_exact (hv : v.IsInteger a) (hw : w.IsInteger b) :
    ((a + b).natAbs ≤ pow2 53 → v.applyBinary .add w = .ok (.int (a + b))) ∧
    ((a - b).natAbs ≤ pow2 53 → v.applyBinary .sub w = .ok (.int (a - b))) ∧
    ((a * b).natAbs ≤ pow2 53 → v.applyBinary .mul w = .ok (.int (a * b))) ∧
    (b ≠ 0 → ∃ r, IsRemainder a b r ∧ (b ∣ a → r = 0) ∧ v.applyBinary .mod w = .ok (.int r)) ∧
    (∀ q, b ≠ 0 → a = b * q → v.applyBinary .div w = .ok (.int q)) ∧
    v.applyUnary .neg = .ok (.int (-a)) ∧
    v.applyUnary .plus = .ok (.int a) := by
  obtain ⟨x, hvx, hx⟩ := hv.toNumber
  refine ⟨hv.add_eq hw, ?_, ?_, ?_, ?_, ?_, ?_⟩
  · intro h
    exact hv.arithmetic_eq hw (fun hx hy => Binary64.toInt?_sub hx hy h) h
  · intro h
    exact hv.arithmetic_eq hw (fun hx hy => Binary64.toInt?_mul hx hy h) h
  · intro hb
    exact ⟨a.tmod b, isRemainder_tmod a hb, Int.tmod_eq_zero_of_dvd, hv.mod_eq hw hb⟩
  · rintro q hb rfl
    exact hv.div_eq hw hb
  · have hsmall : (-a).natAbs ≤ pow2 53 := (Int.natAbs_neg a).symm ▸ hv.natAbs_le
    rw [applyUnary, hvx]
    exact ofResult_of_toInt? (Binary64.toInt?_neg hx) hsmall
  · rw [applyUnary, hvx]
    exact ofResult_of_toInt? hx hv.natAbs_le

/-- Six below zero as a double, divided by three: the remainder is a zero without a sign. -/
theorem arithmetic_is_exact_sample :
    (Value.number (.float (.finite true 6755399441055744 (-50)))).IsInteger (-6) ∧
    (Value.int 3).IsInteger 3 ∧
    (Value.number (.float (.finite true 6755399441055744 (-50)))).applyBinary .sub (.int 3) =
      .ok (.int (-9)) ∧
    (Value.number (.float (.finite true 6755399441055744 (-50)))).applyBinary .mul (.int 3) =
      .ok (.int (-18)) ∧
    (Value.number (.float (.finite true 6755399441055744 (-50)))).applyBinary .mod (.int 3) =
      .ok (.int 0) ∧
    (Value.number (.float (.finite true 6755399441055744 (-50)))).applyBinary .div (.int 3) =
      .ok (.int (-2)) ∧
    (Value.number (.float (.finite true 6755399441055744 (-50)))).applyUnary .neg =
      .ok (.int 6) := by
  have hv : (Value.number (.float (.finite true 6755399441055744 (-50)))).IsInteger (-6) :=
    ⟨_, rfl, by decide, by decide⟩
  have hw : (Value.int 3).IsInteger 3 := isInteger_int (by decide)
  obtain ⟨-, hsub, hmul, hmod, hdiv, hneg, -⟩ := arithmetic_is_exact hv hw
  obtain ⟨r, -, hzero, hr⟩ := hmod (by decide)
  obtain rfl := hzero (by decide)
  exact ⟨hv, hw, hsub (by decide), hmul (by decide), hr, hdiv (-2) (by decide) (by decide), hneg⟩

end Value

end SigilExpr
