import SigilExpr.Proofs.Binary64.Integers
import SigilExpr.Proofs.Value.Canonical

/-!
# Integers among the values

An integer can be given in two forms, as an integer and as a double without a fraction. Up to
`2 ^ 53` both stand for the same double, and a double that comes out as such an integer is made that
integer again, in the first form. So integers of that size go through arithmetic without loss.
-/

set_option autoImplicit false

namespace SigilExpr

/-- The integer that a number is, in either form. -/
def Number.toInt? : Number → Option Int
  | .int n => some n
  | .float x => x.toInt?

namespace Value

variable {v : Value} {n : Int}

/-- The value is the integer, which is at most `2 ^ 53` in size. -/
def IsInteger (v : Value) (n : Int) : Prop :=
  ∃ m : Number, v = .number m ∧ m.toInt? = some n ∧ n.natAbs ≤ pow2 53

theorem isInteger_int (h : n.natAbs ≤ pow2 53) : (Value.int n).IsInteger n :=
  ⟨.int n, rfl, rfl, h⟩

theorem IsInteger.kind_eq (h : v.IsInteger n) : v.kind = .number := by
  obtain ⟨m, rfl, -⟩ := h
  rfl

theorem IsInteger.natAbs_le (h : v.IsInteger n) : n.natAbs ≤ pow2 53 := by
  obtain ⟨m, -, -, hn⟩ := h
  exact hn

/-- An integer stands for the same double in both of its forms. -/
theorem IsInteger.toNumber (h : v.IsInteger n) :
    ∃ x : Binary64, v.toNumber = .ok x ∧ x.toInt? = some n := by
  obtain ⟨m, rfl, hm, hn⟩ := h
  cases m with
  | int i =>
    obtain rfl := Option.some.inj hm
    exact ⟨.ofInt i, rfl, Binary64.toInt?_ofInt hn⟩
  | float x => exact ⟨x, rfl, hm⟩

/-- A double without a fraction is made an integer. -/
theorem ofResult_of_toInt? {x : Binary64} (h : x.toInt? = some n) (hn : n.natAbs ≤ pow2 53) :
    ofResult x = .ok (.int n) := by
  have hsmall : pow2 53 = 9007199254740992 := rfl
  have hlarge : (pow2 63 : Int) = 9223372036854775808 := rfl
  have hrange : -(pow2 63 : Int) ≤ n ∧ n < pow2 63 := by omega
  simp only [ofResult, Number.ofBinary64?, h, if_pos hrange]
  rfl

theorem ofCount_eq {k : Nat} (h : k ≤ pow2 53) : ofCount k = .ok (.int k) :=
  ofResult_of_toInt? (Binary64.toInt?_ofNat h) h

end Value

end SigilExpr
