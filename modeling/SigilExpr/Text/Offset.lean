/-!
# Byte offsets in a text

A source is read as a list of characters, and a position in it is the number of UTF-8 bytes before
that position. This module measures texts in bytes and cuts them at byte offsets; it says nothing
about lines and columns.
-/

set_option autoImplicit false

namespace SigilExpr.Text

/-- The number of UTF-8 bytes that `cs` occupies. -/
def byteLength : List Char → Nat
  | [] => 0
  | c :: cs => c.utf8Size + byteLength cs

@[simp] theorem byteLength_nil : byteLength [] = 0 := rfl

@[simp] theorem byteLength_cons (c : Char) (cs : List Char) :
    byteLength (c :: cs) = c.utf8Size + byteLength cs := rfl

@[simp] theorem byteLength_append (xs ys : List Char) :
    byteLength (xs ++ ys) = byteLength xs + byteLength ys := by
  induction xs with
  | nil => simp
  | cons c xs ih => simp [ih, Nat.add_assoc]

/-- The characters of `cs` that start at byte `offset` or later. -/
def dropBytes (offset : Nat) : List Char → List Char
  | [] => []
  | c :: cs => if offset = 0 then c :: cs else dropBytes (offset - c.utf8Size) cs

/-- The characters of `cs` that start before byte `offset`. -/
def takeBytes (offset : Nat) : List Char → List Char
  | [] => []
  | c :: cs => if offset = 0 then [] else c :: takeBytes (offset - c.utf8Size) cs

@[simp] theorem dropBytes_zero (cs : List Char) : dropBytes 0 cs = cs := by
  cases cs <;> simp [dropBytes]

@[simp] theorem takeBytes_zero (cs : List Char) : takeBytes 0 cs = [] := by
  cases cs <;> simp [takeBytes]

@[simp] theorem dropBytes_byteLength_append (xs ys : List Char) :
    dropBytes (byteLength xs) (xs ++ ys) = ys := by
  induction xs with
  | nil => simp
  | cons c xs ih =>
    have hc := c.utf8Size_pos
    have hne : c.utf8Size + byteLength xs ≠ 0 := by omega
    rw [List.cons_append, byteLength_cons, dropBytes, if_neg hne, Nat.add_sub_cancel_left, ih]

@[simp] theorem takeBytes_byteLength_append (xs ys : List Char) :
    takeBytes (byteLength xs) (xs ++ ys) = xs := by
  induction xs with
  | nil => simp
  | cons c xs ih =>
    have hc := c.utf8Size_pos
    have hne : c.utf8Size + byteLength xs ≠ 0 := by omega
    rw [List.cons_append, byteLength_cons, takeBytes, if_neg hne, Nat.add_sub_cancel_left, ih]

def slice (cs : List Char) (start stop : Nat) : List Char :=
  takeBytes (stop - start) (dropBytes start cs)

theorem slice_append (xs ys zs : List Char) :
    slice (xs ++ ys ++ zs) (byteLength xs) (byteLength xs + byteLength ys) = ys := by
  simp [slice, List.append_assoc]

/-- An offset lies on a boundary of `cs` when some first part of `cs` ends there. -/
def IsBoundary (cs : List Char) (offset : Nat) : Prop :=
  ∃ xs ys, cs = xs ++ ys ∧ byteLength xs = offset

theorem IsBoundary.le_byteLength {cs : List Char} {offset : Nat} (h : IsBoundary cs offset) :
    offset ≤ byteLength cs := by
  obtain ⟨xs, ys, rfl, rfl⟩ := h
  simp

end SigilExpr.Text
