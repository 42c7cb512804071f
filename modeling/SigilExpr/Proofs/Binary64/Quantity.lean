import SigilExpr.Proofs.Binary64.Round

/-!
# What a double amounts to

A double amounts to an infinity or to a rational number, unless it is no number. Two doubles are
equal exactly if they amount to the same: the mantissas are compared in units of the lower one of
their exponents, which loses nothing. So equality of doubles is symmetric and transitive, and it is
reflexive but for the value that is no number.
-/

set_option autoImplicit false

namespace SigilExpr.Binary64

/-- The infinity, told by its sign, or the rational number that a double stands for. -/
def quantity? : Binary64 → Option (Bool ⊕ ℚ)
  | .nan => none
  | .infinite negative => some (.inl negative)
  | .finite negative m e => some (.inr (signed negative m * 2 ^ e))

theorem scaledTo_mul (negative : Bool) (m : Nat) {e low : Int} (h : low ≤ e) :
    (scaledTo low negative m e : ℚ) * 2 ^ low = signed negative m * 2 ^ e := by
  obtain ⟨n, rfl⟩ := Int.exists_add_of_le h
  rw [zpow_add₀ two_ne_zero, zpow_natCast]
  cases negative <;> simp [scaledTo, signed, cast_pow2] <;> ring

theorem scaledTo_eq_iff {a b : Bool} {m n : Nat} {e f low : Int} (he : low ≤ e) (hf : low ≤ f) :
    scaledTo low a m e = scaledTo low b n f ↔
      (signed a m * 2 ^ e : ℚ) = signed b n * 2 ^ f := by
  rw [← scaledTo_mul a m he, ← scaledTo_mul b n hf,
    mul_left_inj' (zpow_ne_zero low (two_ne_zero : (2 : ℚ) ≠ 0)), Int.cast_inj]

theorem equals_iff {x y : Binary64} :
    x.equals y = true ↔ ∃ q, x.quantity? = some q ∧ y.quantity? = some q := by
  cases x with
  | nan => simp [equals, compare?, quantity?]
  | infinite a =>
    cases y with
    | nan => simp [equals, compare?, quantity?]
    | infinite b => cases a <;> cases b <;> simp [equals, compare?, quantity?]
    | finite b n f => cases a <;> simp [equals, compare?, quantity?]
  | finite a m e =>
    cases y with
    | nan => simp [equals, compare?, quantity?]
    | infinite b => cases b <;> simp [equals, compare?, quantity?]
    | finite b n f =>
      have heq := scaledTo_eq_iff (a := a) (b := b) (m := m) (n := n)
        (min_le_left e f) (min_le_right e f)
      simpa [equals, compare?, quantity?] using heq.trans eq_comm

theorem equals_comm (x y : Binary64) : x.equals y = y.equals x := by
  rw [Bool.eq_iff_iff, equals_iff, equals_iff]
  exact exists_congr fun q => and_comm

theorem equals_trans {x y z : Binary64} (hxy : x.equals y = true) (hyz : y.equals z = true) :
    x.equals z = true := by
  obtain ⟨q, hx, hy⟩ := equals_iff.1 hxy
  obtain ⟨r, hy', hz⟩ := equals_iff.1 hyz
  obtain rfl : q = r := Option.some.inj (hy.symm.trans hy')
  exact equals_iff.2 ⟨q, hx, hz⟩

end SigilExpr.Binary64
