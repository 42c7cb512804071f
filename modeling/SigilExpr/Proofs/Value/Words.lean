import Mathlib.Data.Int.Bitwise
import SigilExpr.Power

/-!
# Words of 32 bits and integers

A word is a residue modulo `2 ^ 32`, and it stands for the integer nearest to zero or for the least
natural with that residue. In two's complement an integer has infinitely many bits, which are those
of its word and then its sign, so that the operators on bits are the same on words and on integers.
-/

set_option autoImplicit false

namespace SigilExpr.Word

/-- The residue modulo `2 ^ 32` that lies around zero. -/
def signed (n : Int) : Int := Int.bmod n (pow2 32)

/-- The residue modulo `2 ^ 32` that is not negative. -/
def unsigned (n : Int) : Int := n % pow2 32

theorem toInt_ofInt (n : Int) : (BitVec.ofInt 32 n).toInt = signed n := BitVec.toInt_ofInt n

theorem toNat_ofInt (n : Int) : ((BitVec.ofInt 32 n).toNat : Int) = unsigned n := by
  rw [BitVec.toNat_ofInt]
  exact Int.toNat_of_nonneg (Int.emod_nonneg n (by decide))

/-- A word depends on the residue only. -/
theorem ofInt_congr {m n : Int} (h : unsigned m = unsigned n) :
    BitVec.ofInt 32 m = BitVec.ofInt 32 n := by
  apply BitVec.eq_of_toNat_eq
  have hcast : ((BitVec.ofInt 32 m).toNat : Int) = (BitVec.ofInt 32 n).toNat := by
    rw [toNat_ofInt, toNat_ofInt, h]
  exact_mod_cast hcast

section Bits

variable {w : Nat}

/-- Integers with the same bits are equal: the bits far out tell the sign. -/
theorem eq_of_testBit_eq {a b : Int} (h : ∀ i, a.testBit i = b.testBit i) : a = b := by
  have hfar (m n : Nat) : ∃ i, m.testBit i = false ∧ n.testBit i = false :=
    ⟨m + n, Nat.testBit_lt_two_pow (by have := Nat.lt_two_pow_self (n := m + n); omega),
      Nat.testBit_lt_two_pow (by have := Nat.lt_two_pow_self (n := m + n); omega)⟩
  cases a with
  | ofNat m =>
    cases b with
    | ofNat n => exact congrArg Int.ofNat (Nat.eq_of_testBit_eq h)
    | negSucc n =>
      obtain ⟨i, hm, hn⟩ := hfar m n
      have hi := h i
      simp [Int.testBit, hm, hn] at hi
  | negSucc m =>
    cases b with
    | ofNat n =>
      obtain ⟨i, hm, hn⟩ := hfar m n
      have hi := h i
      simp [Int.testBit, hm, hn] at hi
    | negSucc n =>
      refine congrArg Int.negSucc (Nat.eq_of_testBit_eq fun i => ?_)
      exact Bool.not_inj (h i)

/-- The bits of an integer are those of its word, and then its sign. -/
theorem testBit_toInt (x : BitVec w) (i : Nat) :
    x.toInt.testBit i = if i < w then x.getLsbD i else x.msb := by
  cases hmsb : x.msb with
  | false =>
    have hx : x.toInt = Int.ofNat x.toNat := by simp [BitVec.toInt_eq_msb_cond, hmsb]
    rw [hx]
    change x.getLsbD i = _
    split
    · rfl
    · next hi => exact BitVec.getLsbD_of_ge x i (Nat.not_lt.1 hi)
  | true =>
    have hx : x.toInt = Int.negSucc (~~~x).toNat := by
      have hlt := x.isLt
      rw [BitVec.toInt_eq_msb_cond, if_pos hmsb, BitVec.toNat_not, Int.negSucc_eq]
      omega
    rw [hx]
    change (!(~~~x).getLsbD i) = _
    rw [BitVec.getLsbD_not]
    split <;> simp [*]

theorem toInt_and (x y : BitVec w) : (x &&& y).toInt = Int.land x.toInt y.toInt := by
  apply eq_of_testBit_eq
  intro i
  rw [Int.testBit_land, testBit_toInt, testBit_toInt, testBit_toInt, BitVec.getLsbD_and,
    BitVec.msb_and]
  split <;> rfl

theorem toInt_or (x y : BitVec w) : (x ||| y).toInt = Int.lor x.toInt y.toInt := by
  apply eq_of_testBit_eq
  intro i
  rw [Int.testBit_lor, testBit_toInt, testBit_toInt, testBit_toInt, BitVec.getLsbD_or,
    BitVec.msb_or]
  split <;> rfl

theorem toInt_xor (x y : BitVec w) : (x ^^^ y).toInt = Int.xor x.toInt y.toInt := by
  apply eq_of_testBit_eq
  intro i
  rw [Int.testBit_lxor, testBit_toInt, testBit_toInt, testBit_toInt, BitVec.getLsbD_xor,
    BitVec.msb_xor]
  split <;> rfl

end Bits

variable (x y : BitVec 32)

theorem toInt_not : (~~~x).toInt = Int.lnot x.toInt := by
  apply eq_of_testBit_eq
  intro i
  rw [Int.testBit_lnot, testBit_toInt, testBit_toInt, BitVec.getLsbD_not, BitVec.msb_not]
  split <;> simp [*]

theorem toInt_shiftLeft (k : Nat) : (x <<< k).toInt = signed (x.toInt * pow2 k) := by
  rw [BitVec.toInt_shiftLeft, Nat.shiftLeft_eq, BitVec.toInt_eq_toNat_bmod, Int.natCast_mul]
  exact (Int.bmod_mul_bmod).symm

theorem toInt_sshiftRight (k : Nat) : (x.sshiftRight k).toInt = x.toInt / pow2 k := by
  rw [BitVec.toInt_sshiftRight, Int.shiftRight_eq_div_pow]
  rfl

theorem toNat_ushiftRight (k : Nat) : (x >>> k).toNat = x.toNat / pow2 k := by
  rw [BitVec.toNat_ushiftRight, Nat.shiftRight_eq_div_pow]
  rfl

end SigilExpr.Word
