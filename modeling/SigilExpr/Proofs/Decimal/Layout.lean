import SigilExpr.Proofs.Decimal.Numeral

/-!
# The numeral that a layout writes

The shortest digits of a number, without the zeros at their end, are laid out as a numeral. Zeros
before or behind them, the place of the point and the power of ten change nothing about its value,
which is around the number. So no two numbers are written alike.
-/

set_option autoImplicit false

namespace SigilExpr.Decimal

variable {ds : List Char} {point : Int}

theorem ofDigits_zeros_append (n : Nat) (ds : List Char) :
    ofDigits (zeros n ++ ds) = ofDigits ds := by
  rw [ofDigits_append, ofDigits_zeros, Nat.zero_mul, Nat.zero_add]

theorem ofDigits_append_zeros (ds : List Char) (n : Nat) :
    ofDigits (ds ++ zeros n) = ofDigits ds * 10 ^ n := by
  rw [ofDigits_append, ofDigits_zeros, Nat.add_zero, zeros, List.length_replicate]

theorem isDigit_of_mem_zeros {n : Nat} : ∀ c ∈ zeros n, c.isDigit = true := by
  intro c hc
  obtain rfl := List.eq_of_mem_replicate hc
  rfl

/-- The digits of a natural are those that count and then zeros. -/
theorem exists_toDigits_eq (n : Nat) (p : Int) : ∃ z,
    Nat.toDigits 10 n = (significant n p).1 ++ zeros z ∧
      (significant n p).2 = (significant n p).1.length + z + p := by
  set ds := Nat.toDigits 10 n
  have hzeros : ds.reverse.takeWhile (· == '0') =
      zeros (ds.reverse.takeWhile (· == '0')).length :=
    List.eq_replicate_of_mem fun c hc => by simpa using List.mem_takeWhile_imp hc
  have hsplit : ds = (significant n p).1 ++ zeros (ds.reverse.takeWhile (· == '0')).length := by
    rw [← List.reverse_inj, List.reverse_append, zeros, List.reverse_replicate]
    change _ = zeros _ ++ ((ds.reverse.dropWhile (· == '0')).reverse).reverse
    rw [← hzeros, List.reverse_reverse, List.takeWhile_append_dropWhile]
  refine ⟨_, hsplit, ?_⟩
  have hlength := congrArg List.length hsplit
  rw [List.length_append, zeros, List.length_replicate] at hlength
  change (ds.length : Int) + p = _
  omega

theorem significant_ne_nil {n : Nat} (hn : n ≠ 0) (p : Int) : (significant n p).1 ≠ [] := by
  obtain ⟨z, hdigits, -⟩ := exists_toDigits_eq n p
  intro hnil
  rw [hnil, List.nil_append] at hdigits
  rw [← ofDigits_toDigits n, hdigits, ofDigits_zeros] at hn
  exact hn rfl

theorem significant_value (n : Nat) (p : Int) :
    (ofDigits (significant n p).1 : ℚ) * 10 ^ ((significant n p).2 - (significant n p).1.length) =
      n * 10 ^ p := by
  obtain ⟨z, hdigits, hpoint⟩ := exists_toDigits_eq n p
  have hn : n = ofDigits (significant n p).1 * 10 ^ z := by
    rw [← ofDigits_append_zeros, ← hdigits, ofDigits_toDigits]
  have hexponent : (significant n p).2 - (significant n p).1.length = z + p := by omega
  calc (ofDigits (significant n p).1 : ℚ) *
        10 ^ ((significant n p).2 - (significant n p).1.length)
      = ofDigits (significant n p).1 * (10 ^ z * 10 ^ p) := by
        rw [hexponent, zpow_add₀ (by norm_num), zpow_natCast]
    _ = (ofDigits (significant n p).1 * 10 ^ z : Nat) * 10 ^ p := by
        push_cast
        ring
    _ = n * 10 ^ p := by rw [← hn]

theorem isDigit_of_mem_significant {n : Nat} {p : Int} :
    ∀ c ∈ (significant n p).1, c.isDigit = true := by
  obtain ⟨z, hdigits, -⟩ := exists_toDigits_eq n p
  intro c hc
  exact isDigit_of_mem_toDigits c (hdigits ▸ List.mem_append_left _ hc)

theorem place_before (h : point ≤ 0) :
    Layout.structured.place ds point = '0' :: '.' :: (zeros point.natAbs ++ ds) := by
  simp [Layout.place, h]

theorem place_behind (h : 0 < point) (hlength : ds.length ≤ point.toNat) :
    Layout.structured.place ds point = ds ++ zeros (point.toNat - ds.length) ++ ['.', '0'] := by
  simp [Layout.place, Int.not_le.2 h, hlength]
  rfl

theorem place_within (h : 0 < point) (hlength : point.toNat < ds.length) :
    Layout.structured.place ds point = ds.take point.toNat ++ '.' :: ds.drop point.toNat := by
  simp [Layout.place, Int.not_le.2 h, Nat.not_le.2 hlength]

/-- The numeral has the text, and its value is that of the digits in units of a power of ten. -/
structure Writes (n : Numeral) (cs ds : List Char) (k : Int) : Prop where
  text : n.text = cs
  value : n.value = ofDigits ds * 10 ^ k
  marked : n.fraction ≠ [] ∨ n.power ≠ none

section Place

variable (hds : ∀ c ∈ ds, c.isDigit = true) (hne : ds ≠ [])

include hds hne

theorem exists_place_before (h : point ≤ 0) :
    ∃ n, Writes n (Layout.structured.place ds point) ds (point - ds.length) := by
  have hfraction : ∀ c ∈ zeros point.natAbs ++ ds, c.isDigit = true :=
    List.forall_mem_append.2 ⟨isDigit_of_mem_zeros, hds⟩
  have hexponent : 0 - ((zeros point.natAbs ++ ds).length : Int) = point - ds.length := by
    simp only [zeros, List.length_append, List.length_replicate]
    omega
  have hdigits : ofDigits (['0'] ++ (zeros point.natAbs ++ ds)) = ofDigits ds := by
    rw [← ofDigits_zeros_append (point.natAbs + 1) ds, zeros, zeros, List.replicate_succ]
    rfl
  refine ⟨⟨['0'], zeros point.natAbs ++ ds, none, by simp, List.forall_mem_singleton.2 rfl,
    hfraction⟩, ?_, ?_, ?_⟩
  · simp [place_before h, Numeral.text, Numeral.fractionText, Numeral.powerText, hne]
  · simp only [Numeral.value, Option.getD_none, hexponent, hdigits]
  · simp [hne]

theorem exists_place_behind (h : 0 < point) (hlength : ds.length ≤ point.toNat) :
    ∃ n, Writes n (Layout.structured.place ds point) ds (point - ds.length) := by
  have hwhole : ∀ c ∈ ds ++ zeros (point.toNat - ds.length), c.isDigit = true :=
    List.forall_mem_append.2 ⟨hds, isDigit_of_mem_zeros⟩
  have hdigits : ds ++ zeros (point.toNat - ds.length) ++ ['0'] =
      ds ++ zeros (point.toNat - ds.length + 1) := by
    rw [List.append_assoc, zeros, zeros, ← List.replicate_succ']
  have hexponent : point - ds.length = ((point.toNat - ds.length + 1 : Nat) : Int) + -1 := by
    omega
  refine ⟨⟨ds ++ zeros (point.toNat - ds.length), ['0'], none, by simp [hne], hwhole,
    List.forall_mem_singleton.2 rfl⟩, ?_, ?_, ?_⟩
  · rw [place_behind h hlength]
    simp [Numeral.text, Numeral.fractionText, Numeral.powerText]
  · -- the zero behind the point is one more digit, and it takes one from the exponent
    dsimp only [Numeral.value]
    rw [hdigits, ofDigits_append_zeros, hexponent, zpow_add₀ (by norm_num), zpow_natCast,
      Nat.cast_mul, Nat.cast_pow, mul_assoc]
    rfl
  · simp

theorem exists_place_within (h : 0 < point) (hlength : point.toNat < ds.length) :
    ∃ n, Writes n (Layout.structured.place ds point) ds (point - ds.length) := by
  have htake : ds.take point.toNat ≠ [] := by
    rw [Ne, List.take_eq_nil_iff, not_or]
    exact ⟨by omega, hne⟩
  have hexponent : 0 - ((ds.drop point.toNat).length : Int) = point - ds.length := by
    rw [List.length_drop]
    omega
  refine ⟨⟨ds.take point.toNat, ds.drop point.toNat, none, htake, ?_, ?_⟩, ?_, ?_, ?_⟩
  · exact fun c hc => hds c (List.mem_of_mem_take hc)
  · exact fun c hc => hds c (List.mem_of_mem_drop hc)
  · rw [place_within h hlength]
    simp [Numeral.text, Numeral.fractionText, Numeral.powerText]
    omega
  · simp only [Numeral.value, Option.getD_none, hexponent, List.take_append_drop]
  · simp
    omega

/-- The point stands before the digits, behind them or among them. -/
theorem exists_place (point : Int) :
    ∃ n, Writes n (Layout.structured.place ds point) ds (point - ds.length) := by
  rcases le_or_gt point 0 with hpoint | hpoint
  · exact exists_place_before hds hne hpoint
  · rcases le_or_gt ds.length point.toNat with hlength | hlength
    · exact exists_place_behind hds hne hpoint hlength
    · exact exists_place_within hds hne hpoint hlength

end Place

theorem exists_withPower (hds : ∀ c ∈ ds, c.isDigit = true) (hne : ds ≠ []) (point : Int) :
    ∃ n, Writes n (Layout.withPower ds (point - 1)) ds (point - ds.length) := by
  obtain ⟨d, ds, rfl⟩ := List.exists_cons_of_ne_nil hne
  obtain ⟨hd, hds⟩ := List.forall_mem_cons.1 hds
  refine ⟨⟨[d], ds, some (point - 1), by simp, by simpa using hd, hds⟩, ?_, ?_, ?_⟩
  · cases ds <;> rfl
  · have hexponent : point - 1 - (ds.length : Int) = point - (d :: ds).length := by
      rw [List.length_cons]
      omega
    simp only [Numeral.value, Option.getD_some, hexponent, List.singleton_append]
  · simp

theorem around_zero (e : Int) : Around 0 e 0 := by
  refine ⟨?_, ?_, fun h => by cases h⟩
  · simp [lowEnd]
  · unfold highEnd
    positivity

/-- The digits that a layout puts down for a number have a value, where the point stands, that is
around the number. -/
theorem exists_digits (l : Layout) {m : Nat} {e : Int} (hm : m ≠ 0)
    (h : (Binary64.finite false m e).Canonical) :
    ∃ ds point, ds ≠ [] ∧ (∀ c ∈ ds, c.isDigit = true) ∧
      Around m e (ofDigits ds * 10 ^ (point - ds.length : Int)) ∧
      (l.write (.finite false m e)).toList =
        if l.positional (point - 1) then l.place ds point else Layout.withPower ds (point - 1) := by
  have haround := around_shortest l.tie (Nat.pos_of_ne_zero hm) h
  obtain ⟨n, p, hshortest, -⟩ := exists_shortest l.tie (Nat.pos_of_ne_zero hm) h
  rw [hshortest] at haround
  dsimp only at haround
  have hn : n ≠ 0 := by
    rintro rfl
    have hpos := haround.pos (Nat.pos_of_ne_zero hm)
    simp at hpos
  rw [← significant_value] at haround
  refine ⟨(significant n p).1, (significant n p).2, significant_ne_nil hn p,
    isDigit_of_mem_significant, haround, ?_⟩
  simp only [Layout.write, hm, if_false, Bool.false_eq_true, hshortest, String.toList_ofList]

/-- What structured text writes for a number is a numeral whose value is around the number. -/
theorem exists_write {m : Nat} {e : Int} (h : (Binary64.finite false m e).Canonical) :
    ∃ n : Numeral, (Layout.structured.write (.finite false m e)).toList = n.text ∧
      Around m e n.value ∧ (n.fraction ≠ [] ∨ n.power ≠ none) := by
  by_cases hm : m = 0
  · subst hm
    have hzero : ∀ c ∈ ['0'], c.isDigit = true := List.forall_mem_singleton.2 rfl
    refine ⟨⟨['0'], ['0'], none, by simp, hzero, hzero⟩, by simp [Layout.write]; rfl, ?_, by simp⟩
    have hvalue : ofDigits ['0', '0'] = 0 := rfl
    simpa [Numeral.value, hvalue] using around_zero e
  · obtain ⟨ds, point, hne, hdigits, haround, htext⟩ := exists_digits .structured hm h
    rw [htext]
    split
    · obtain ⟨k, hk⟩ := exists_place hdigits hne point
      exact ⟨k, hk.text.symm, hk.value ▸ haround, hk.marked⟩
    · obtain ⟨k, hk⟩ := exists_withPower hdigits hne point
      exact ⟨k, hk.text.symm, hk.value ▸ haround, hk.marked⟩

end SigilExpr.Decimal
