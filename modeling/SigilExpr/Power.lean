/-!
# Powers of two and of ten

The powers that exact arithmetic on binary and decimal numbers needs.
-/

set_option autoImplicit false

namespace SigilExpr

def pow2 (n : Nat) : Nat := Nat.pow 2 n

def pow10 (n : Nat) : Nat := Nat.pow 10 n

@[simp] theorem pow2_zero : pow2 0 = 1 := rfl

theorem pow2_succ (n : Nat) : pow2 (n + 1) = pow2 n * 2 := rfl

theorem pow2_pos (n : Nat) : 0 < pow2 n := by
  induction n with
  | zero => decide
  | succ n ih => rw [pow2_succ]; omega

theorem pow2_add (m n : Nat) : pow2 (m + n) = pow2 m * pow2 n := by
  induction n with
  | zero => simp
  | succ n ih => rw [← Nat.add_assoc, pow2_succ, pow2_succ, ih, Nat.mul_assoc]

@[simp] theorem pow10_zero : pow10 0 = 1 := rfl

theorem pow10_succ (n : Nat) : pow10 (n + 1) = pow10 n * 10 := rfl

theorem pow10_pos (n : Nat) : 0 < pow10 n := by
  induction n with
  | zero => decide
  | succ n ih => rw [pow10_succ]; omega

end SigilExpr
