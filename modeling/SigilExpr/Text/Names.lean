/-!
# Sets of names

A set of names is a list in strictly ascending order.
-/

set_option autoImplicit false

namespace SigilExpr.Text

def insertName (name : String) : List String → List String
  | [] => [name]
  | n :: ns =>
    if name = n then n :: ns
    else if name < n then name :: n :: ns
    else n :: insertName name ns

def nameSet (names : List String) : List String :=
  names.foldr insertName []

theorem mem_insertName (m name : String) (ns : List String) :
    m ∈ insertName name ns ↔ m = name ∨ m ∈ ns := by
  induction ns with
  | nil => simp [insertName]
  | cons n ns ih =>
    simp only [insertName]
    split
    · next h => simp [h]
    · split
      · simp
      · simp only [List.mem_cons, ih]
        exact or_left_comm

@[simp] theorem mem_nameSet (m : String) (names : List String) :
    m ∈ nameSet names ↔ m ∈ names := by
  induction names with
  | nil => simp [nameSet]
  | cons n ns ih =>
    rw [nameSet, List.foldr_cons, mem_insertName, ← nameSet, ih, List.mem_cons]

end SigilExpr.Text
