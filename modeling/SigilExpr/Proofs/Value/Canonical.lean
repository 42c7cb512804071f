import SigilExpr.Proofs.Eval.Kept

/-!
# Canonical values

A number is canonical if it is an integer of 63 bits and a sign, or a finite double that equals no
such integer, so that such an integer has one form only. A value is canonical if all numbers in it
are; every operation on values gives canonical values when it is given canonical values.

The double minus zero is NOT canonical: it equals the integer zero.
-/

set_option autoImplicit false

namespace SigilExpr

namespace Number

/-- Whether an integer has 63 bits and a sign. -/
def InRange (n : Int) : Prop := -(pow2 63 : Int) ≤ n ∧ n < pow2 63

instance (n : Int) : Decidable (InRange n) := inferInstanceAs (Decidable (_ ∧ _))

/-- An integer in the range, or a finite double that equals none. -/
def Canonical : Number → Prop
  | .int n => InRange n
  | .float x => x.isFinite = true ∧ ∀ n ∈ x.toInt?, ¬ InRange n

instance : (n : Number) → Decidable n.Canonical
  | .int n => inferInstanceAs (Decidable (InRange n))
  | .float x => inferInstanceAs (Decidable (x.isFinite = true ∧ ∀ n ∈ x.toInt?, ¬ InRange n))

/-- A number that stands for an arithmetic result is canonical. -/
theorem canonical_of_ofBinary64? {x : Binary64} {n : Number} (h : ofBinary64? x = some n) :
    n.Canonical := by
  unfold ofBinary64? at h
  split at h
  · next k hk =>
    split at h
    · next hrange =>
      obtain rfl := Option.some.inj h
      exact hrange
    · next hrange =>
      obtain rfl := Option.some.inj h
      have hfinite : x.isFinite = true := by cases x <;> trivial
      refine ⟨hfinite, ?_⟩
      intro m hm
      obtain rfl := Option.some.inj (hk.symm.trans hm)
      exact hrange
  · next hnone =>
    split at h
    · next hfinite =>
      obtain rfl := Option.some.inj h
      refine ⟨hfinite, ?_⟩
      intro m hm
      rw [hnone] at hm
      cases hm
    · cases h

end Number

namespace Value

mutual

/-- The numbers in a value, at any depth. -/
def numbers : Value → List Number
  | .null | .bool _ | .string _ => []
  | .number n => [n]
  | .array items => numbersAll items
  | .object fields => numbersOfFields fields

def numbersAll : List Value → List Number
  | [] => []
  | v :: vs => numbers v ++ numbersAll vs

def numbersOfFields : List (String × Value) → List Number
  | [] => []
  | (_, v) :: rest => numbers v ++ numbersOfFields rest

end

/-- All numbers in the value are canonical. -/
def Canonical (v : Value) : Prop := ∀ n ∈ v.numbers, n.Canonical

instance (v : Value) : Decidable v.Canonical :=
  inferInstanceAs (Decidable (∀ n ∈ v.numbers, n.Canonical))

theorem canonical_null : Canonical .null := by simp [Canonical, numbers]

theorem canonical_bool (b : Bool) : Canonical (.bool b) := by simp [Canonical, numbers]

theorem canonical_string (s : String) : Canonical (.string s) := by simp [Canonical, numbers]

theorem canonical_number_iff {n : Number} : Canonical (.number n) ↔ n.Canonical := by
  simp [Canonical, numbers]

theorem forall_mem_numbersAll_iff {P : Number → Prop} {items : List Value} :
    (∀ n ∈ numbersAll items, P n) ↔ ∀ v ∈ items, ∀ n ∈ v.numbers, P n := by
  induction items with
  | nil => simp [numbersAll]
  | cons v vs ih => rw [numbersAll, List.forall_mem_append, List.forall_mem_cons, ih]

theorem forall_mem_numbersOfFields_iff {P : Number → Prop} {fields : List (String × Value)} :
    (∀ n ∈ numbersOfFields fields, P n) ↔ ∀ field ∈ fields, ∀ n ∈ field.2.numbers, P n := by
  induction fields with
  | nil => simp [numbersOfFields]
  | cons field rest ih =>
    obtain ⟨k, v⟩ := field
    rw [numbersOfFields, List.forall_mem_append, List.forall_mem_cons, ih]

theorem canonical_array_iff {items : List Value} :
    Canonical (.array items) ↔ ∀ v ∈ items, v.Canonical :=
  forall_mem_numbersAll_iff

theorem canonical_object_iff {fields : List (String × Value)} :
    Canonical (.object fields) ↔ ∀ field ∈ fields, field.2.Canonical :=
  forall_mem_numbersOfFields_iff

theorem canonical_int {n : Int} (h : Number.InRange n) : Canonical (.int n) :=
  canonical_number_iff.2 h

theorem canonical_ofResult (x : Binary64) : Yields Canonical (ofResult x) := by
  unfold ofResult
  split
  · next hn => exact .ok (canonical_number_iff.2 (Number.canonical_of_ofBinary64? hn))
  · exact .error _

theorem canonical_bitwise (f : BitVec 32 → BitVec 32 → Int) (v w : Value) :
    Yields Canonical (bitwise f v w) :=
  (Yields.any _).bind fun _ _ => (Yields.any _).bind fun _ _ => canonical_ofResult _

theorem canonical_arithmetic (f : Binary64 → Binary64 → Binary64) (v w : Value) :
    Yields Canonical (arithmetic f v w) :=
  (Yields.any _).bind fun _ _ => (Yields.any _).bind fun _ _ => canonical_ofResult _

theorem canonical_divide (f : Binary64 → Binary64 → Binary64) (zero : ArithmeticFault)
    (v w : Value) : Yields Canonical (divide f zero v w) := by
  refine (Yields.any _).bind ?_
  intro y _
  exact .ite (.error _) ((Yields.any _).bind fun _ _ => canonical_ofResult _)

theorem canonical_ordered (accept : Ordering → Bool) (v w : Value) :
    Yields Canonical (ordered accept v w) := by
  unfold ordered
  split
  · exact .ok (canonical_bool _)
  · exact (Yields.any _).bind fun _ _ => (Yields.any _).bind fun _ _ => .ok (canonical_bool _)

theorem canonical_applyUnary (v : Value) (op : UnaryOp) : Yields Canonical (v.applyUnary op) := by
  cases op with
  | neg | plus => exact (Yields.any _).bind fun x _ => canonical_ofResult _
  | not => exact .ok (canonical_bool _)
  | bitNot => exact (Yields.any _).bind fun _ _ => canonical_ofResult _
  | typeof | void | delete => exact .error _

theorem canonical_applyBinary (v : Value) (op : BinaryOp) (w : Value) :
    Yields Canonical (v.applyBinary op w) := by
  cases op with
  | add => exact .ite (.ok (canonical_string _)) (canonical_arithmetic _ v w)
  | sub | mul => exact canonical_arithmetic _ v w
  | div | mod => exact canonical_divide _ _ v w
  | eq | notEq | strictEq | strictNotEq => exact .ok (canonical_bool _)
  | lt | lte | gt | gte => exact canonical_ordered _ v w
  | shl | shr | ushr | bitAnd | bitOr | bitXor => exact canonical_bitwise _ v w
  | isIn | instanceOf => exact .error _

theorem canonical_getD {v : Option Value} (h : ∀ a ∈ v, a.Canonical) : (v.getD .null).Canonical := by
  cases v with
  | none => exact canonical_null
  | some v => exact h v rfl

theorem canonical_property {v : Value} (h : v.Canonical) (key : Value) :
    Yields Canonical (v.property key) := by
  cases v with
  | null | bool b | number n => exact .error _
  | object fields =>
    refine .ok (canonical_getD ?_)
    intro a ha
    exact canonical_object_iff.1 h _ (NameMap.mem_of_find? ha)
  | array items =>
    refine .ite (canonical_ofResult _) (.ok (canonical_getD ?_))
    intro a ha
    obtain ⟨i, -, hi⟩ := Option.bind_eq_some_iff.1 ha
    exact canonical_array_iff.1 h a (List.mem_of_getElem? hi)
  | string s =>
    refine .ite (canonical_ofResult _) (.ok (canonical_getD ?_))
    intro a ha
    obtain ⟨c, -, rfl⟩ := Option.map_eq_some_iff.1 ha
    exact canonical_string _

theorem canonical_placeValue (place : Option Nat) : Yields Canonical (placeValue place) := by
  cases place with
  | none => exact .ok (canonical_int (by decide))
  | some i => exact canonical_ofResult _

theorem sliceOf_subset {α : Type} (xs : List α) (args : List Value) :
    Yields (fun ys => ys ⊆ xs) (sliceOf xs args) := by
  refine (Yields.any _).bind ?_
  intro start _
  refine (Yields.any _).bind ?_
  intro stop _
  exact .ok fun x hx => List.mem_of_mem_take (List.mem_of_mem_drop hx)

theorem canonical_toFixed (n : Number) (args : List Value) :
    Yields Canonical (toFixed n args) := by
  refine (Yields.any _).bind ?_
  intro places _
  split
  · exact .ite (.error _) (.ok (canonical_string _))
  · exact .error _

theorem canonical_callString (s name : String) (args : List Value) :
    Yields Canonical (callString s name args) := by
  unfold callString
  split
  case h_4 | h_5 | h_6 => exact .ok (canonical_bool _)
  case h_7 => exact canonical_placeValue _
  case h_8 => exact (Yields.any _).bind fun _ _ => .ok (canonical_string _)
  case h_9 => exact .error _
  all_goals exact .ok (canonical_string _)

theorem canonical_callArray {items : List Value} (h : ∀ v ∈ items, v.Canonical) (name : String)
    (args : List Value) : Yields Canonical (callArray items name args) := by
  unfold callArray
  split
  · exact .ok (canonical_bool _)
  · exact canonical_placeValue _
  · exact .ok (canonical_string _)
  · refine (sliceOf_subset items args).bind ?_
    intro part hpart
    exact .ok (canonical_array_iff.2 fun v hv => h v (hpart hv))
  · exact .error _

theorem canonical_call {v : Value} (h : v.Canonical) (method : Value) (args : List Value) :
    Yields Canonical (v.call method args) := by
  cases v with
  | null => exact .error _
  | number n => exact .ite (canonical_toFixed n args) (.ite (.ok (canonical_string _)) (.error _))
  | string s => exact .ite (.ok (canonical_string _)) (canonical_callString s _ args)
  | array items =>
    exact .ite (.ok (canonical_string _)) (canonical_callArray (canonical_array_iff.1 h) _ args)
  | bool b | object fields => exact .ite (.ok (canonical_string _)) (.error _)

theorem canonical_kept : Kept Canonical where
  null := canonical_null
  string := canonical_string
  array := canonical_array_iff.2
  unary op _ := canonical_applyUnary _ op
  binary op _ _ := canonical_applyBinary _ op _
  property hv _ := canonical_property hv _
  call hv _ _ := canonical_call hv _ _

end Value

end SigilExpr
