import SigilExpr.Binary64.Arith
import SigilExpr.Proofs.Binary64.Integers
import SigilExpr.Proofs.Value.Words

/-!
# The word of a double

A double becomes a word in steps: its fraction is cut off, the remainder modulo `2 ^ 32` is taken in
double precision, and this is converted. No step rounds, so the word is the residue of the integer
part. The integer part of a double has 53 bits at most; beyond those bits there is no fraction.
-/

set_option autoImplicit false

namespace SigilExpr.Binary64

variable {x y : Binary64} {k l : Int}

theorem toInt?_trunc (h : x.truncate? = some k) (hx : x.Canonical ∨ k.natAbs ≤ pow2 53) :
    x.trunc.toInt? = some k := by
  rcases x with _ | negative | ⟨negative, m, e⟩
  · cases h
  · cases h
  · obtain rfl := Option.some.inj h
    by_cases he : 0 ≤ e
    · have hunit : (-e).toNat = 0 := by omega
      simp only [trunc, if_pos he, toInt?, hunit, pow2_zero, Nat.mod_one, if_true]
    · have hscale : e.toNat = 0 := by omega
      rw [hscale, pow2_zero, Nat.mul_one, natAbs_signed] at hx
      have hsmall : m / pow2 (-e).toNat ≤ pow2 53 :=
        hx.elim (fun hx => (Nat.div_le_self _ _).trans hx.1.le) id
      simp only [trunc, if_neg he, hscale, pow2_zero, Nat.mul_one]
      exact toInt?_round hsmall

theorem toInt?_abs (h : x.toInt? = some k) : x.abs.toInt? = some (k.natAbs : Int) := by
  rcases x with _ | negative | ⟨negative, m, e⟩
  · cases h
  · cases h
  · simp only [abs, toInt?] at h ⊢
    split at h
    · next hmod =>
      obtain rfl := Option.some.inj h
      rw [if_pos hmod, natAbs_signed]
      rfl
    · cases h

/-- The remainder of an integer by a positive one is the residue. -/
theorem toInt?_remEuclid (hx : x.toInt? = some k) (hy : y.toInt? = some l) (hl : 0 < l)
    (hdivisor : l ≤ pow2 53) : (remEuclid x y).toInt? = some (k % l) := by
  have hlow := Int.emod_nonneg k (Int.ne_of_gt hl)
  have hhigh := Int.emod_lt_of_pos k hl
  have htmod : k.tmod l = k % l ∨ k.tmod l = k % l - l := by
    rw [Int.tmod_eq_emod]
    split
    · exact .inl (Int.sub_zero _)
    · exact .inr (by rw [Int.natAbs_of_nonneg hl.le])
  have hrem : (rem x y).toInt? = some (k.tmod l) := toInt?_rem hx hy (Int.ne_of_gt hl) (by omega)
  have hbelow : (rem x y).compare? (signedZero false) = some .lt ↔ k.tmod l < 0 := by
    rw [compare?_of_toInt? hrem (toInt?_signedZero false), Option.some.injEq, compare_lt_iff_lt]
  unfold remEuclid
  by_cases hneg : k.tmod l < 0
  · have hsum : k.tmod l + l.natAbs = k % l := by omega
    rw [if_pos (hbelow.2 hneg), toInt?_add hrem (toInt?_abs hy) (by omega), hsum]
  · have hsame : k.tmod l = k % l := by omega
    rw [if_neg (mt hbelow.1 hneg), hrem, hsame]

theorem toUnsigned_of_toInt? (h : x.toInt? = some k) (hlow : 0 ≤ k) (hhigh : k < pow2 32) :
    x.toUnsigned = BitVec.ofInt 32 k := by
  rcases x with _ | negative | ⟨negative, m, e⟩
  · cases h
  · cases h
  · obtain rfl := Option.some.inj (truncate?_of_toInt? h)
    generalize hn : signed negative (m * pow2 e.toNat / pow2 (-e).toNat) = n at *
    obtain ⟨i, rfl⟩ := Int.eq_ofNat_of_zero_le hlow
    have hi : i ≤ pow2 32 - 1 := by omega
    rw [toUnsigned, hn, Int.toNat_natCast, Nat.min_eq_left hi, BitVec.ofInt_natCast]

/-- The word of a double is the residue of its integer part. -/
theorem toWord_of_truncate? (h : x.truncate? = some k) (hx : x.Canonical ∨ k.natAbs ≤ pow2 53) :
    x.toWord = BitVec.ofInt 32 k := by
  have hfinite : x.isFinite = true := by
    cases x with
    | finite negative m e => rfl
    | _ => cases h
  have hdivisor : (ofNat (pow2 32)).toInt? = some (pow2 32 : Int) := toInt?_ofNat (by decide)
  have hresidue := toInt?_remEuclid (toInt?_trunc h hx) hdivisor (by decide) (by decide)
  have hlow : 0 ≤ k % pow2 32 := Int.emod_nonneg k (by decide)
  have hhigh : k % pow2 32 < pow2 32 := Int.emod_lt_of_pos k (by decide)
  rw [toWord, if_pos hfinite, toUnsigned_of_toInt? hresidue hlow hhigh]
  exact Word.ofInt_congr (Int.emod_emod k (pow2 32))

theorem toWord_eq (hx : x.Canonical) : x.toWord = BitVec.ofInt 32 (x.truncate?.getD 0) := by
  rcases x with _ | negative | ⟨negative, m, e⟩
  · rfl
  · rfl
  · exact toWord_of_truncate? rfl (.inl hx)

end SigilExpr.Binary64
