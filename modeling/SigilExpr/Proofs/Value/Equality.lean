import Mathlib.Data.List.Forall2
import SigilExpr.Proofs.NameMap
import SigilExpr.Proofs.Value.Text
import SigilExpr.Value.Method

/-!
# Strict equality and parts

Two numbers are strictly equal if they are numerically equal, but as parts of two arrays or objects
they must have one form too: an integer is never equal to a double there, and two integers that one
double stands for are told apart. So strict equality does NOT go part by part. The methods of an
array that look for a part do compare it as strict equality does.
-/

set_option autoImplicit false

namespace SigilExpr

theorem Binary64.equals_self {x : Binary64} (hx : x ≠ .nan) : x.equals x = true := by
  rcases x with _ | negative | ⟨negative, m, e⟩
  · exact absurd rfl hx
  · simp [equals, compare?]
  · simp [equals, compare?]

theorem Binary64.ofUnits_ne_nan (negative : Bool) (m : Nat) (e : Int) :
    ofUnits negative m e ≠ .nan := by
  unfold ofUnits
  split
  split <;> simp

theorem Binary64.ofInt_ne_nan (n : Int) : ofInt n ≠ .nan := by
  unfold ofInt round
  split
  · simp [signedZero]
  · exact ofUnits_ne_nan _ _ _

/-- Whether two numbers are one integer or both doubles. -/
def Number.sameForm : Number → Number → Bool
  | .int m, .int n => m == n
  | .float _, .float _ => true
  | _, _ => false

/-- One integer is equal to itself also as a double. -/
theorem Number.same_eq (m n : Number) :
    m.same n = (m.toBinary64.equals n.toBinary64 && m.sameForm n) := by
  cases m with
  | int i =>
    cases n with
    | int j =>
      by_cases h : i = j
      · subst h
        have hself : (Binary64.ofInt i).equals (Binary64.ofInt i) = true :=
          Binary64.equals_self (Binary64.ofInt_ne_nan i)
        simp [same, sameForm, toBinary64, hself]
      · simp [same, sameForm, h]
    | float y => simp [same, sameForm]
  | float x =>
    cases n with
    | int j => simp [same, sameForm]
    | float y => simp [same, sameForm, toBinary64]

namespace Value

/-- Whether two values are no numbers that differ in form. -/
def sameForm : Value → Value → Bool
  | .number m, .number n => m.sameForm n
  | _, _ => true

/-- Parts are compared by strict equality and, if they are numbers, by their form. -/
theorem same_eq (v w : Value) : v.same w = (v.strictEquals w && v.sameForm w) := by
  cases v with
  | number m =>
    cases w with
    | number n => exact Number.same_eq m n
    | null | bool _ | string _ | array _ | object _ => simp [strictEquals, sameForm]
  | null | bool _ | string _ | array _ | object _ => simp [strictEquals, sameForm]

theorem sameAll_iff {xs ys : List Value} :
    sameAll xs ys = true ↔ List.Forall₂ (fun v w => v.same w = true) xs ys := by
  induction xs generalizing ys with
  | nil => cases ys <;> simp [sameAll]
  | cons x xs ih => cases ys <;> simp [sameAll, ih]

theorem sameFields_iff {xs ys : List (String × Value)} :
    sameFields xs ys = true ↔
      List.Forall₂ (fun d e => d.1 = e.1 ∧ d.2.same e.2 = true) xs ys := by
  induction xs generalizing ys with
  | nil => cases ys <;> simp [sameFields]
  | cons x xs ih => cases ys <;> simp [sameFields, ih]

theorem array_strictEquals_iff {xs ys : List Value} :
    strictEquals (.array xs) (.array ys) = true ↔
      xs.length = ys.length ∧ ∀ i (hx : i < xs.length) (hy : i < ys.length),
        xs[i].strictEquals ys[i] = true ∧ xs[i].sameForm ys[i] = true := by
  have hsame : strictEquals (.array xs) (.array ys) = sameAll xs ys := by
    simp [strictEquals, same]
  rw [hsame, sameAll_iff, List.forall₂_iff_get]
  simp only [same_eq, Bool.and_eq_true, List.get_eq_getElem]

theorem object_strictEquals_iff {xs ys : List (String × Value)} (hxs : NameMap.InOrder xs)
    (hys : NameMap.InOrder ys) :
    strictEquals (.object xs) (.object ys) = true ↔
      (∀ name, name ∈ NameMap.names xs ↔ name ∈ NameMap.names ys) ∧
      ∀ name v w, NameMap.find? name xs = some v → NameMap.find? name ys = some w →
        v.strictEquals w = true ∧ v.sameForm w = true := by
  have hsame : strictEquals (.object xs) (.object ys) = sameFields xs ys := by
    simp [strictEquals, same]
  rw [hsame, sameFields_iff,
    NameMap.forall₂_iff (R := fun v w : Value => v.same w = true) hxs hys]
  simp only [same_eq, Bool.and_eq_true]

theorem ofCount_ne_minusOne (n : Nat) : ofCount n ≠ .ok (.int (-1)) := by
  intro h
  unfold ofCount ofResult at h
  split at h
  · next m hm =>
    have hunsigned := Number.unsigned_of_ofBinary64? (Binary64.unsigned_ofNat n) hm
    cases h
    exact absurd (show (0 : Int) ≤ -1 from hunsigned) (by decide)
  · cases h

theorem array_includes_iff {items : List Value} {v : Value} :
    (Value.array items).call (.string "includes") [v] = .ok (.bool true) ↔
      ∃ item ∈ items, item.strictEquals v = true := by
  have hcall : (Value.array items).call (.string "includes") [v] =
      .ok (.bool (items.any (strictEquals · v))) := rfl
  simp [hcall]

theorem array_indexOf_eq (items : List Value) (v : Value) :
    (Value.array items).call (.string "indexOf") [v] =
      placeValue (items.findIdx? (strictEquals · v)) := rfl

theorem array_indexOf_eq_minusOne_iff {items : List Value} {v : Value} :
    (Value.array items).call (.string "indexOf") [v] = .ok (.int (-1)) ↔
      ∀ item ∈ items, item.strictEquals v = false := by
  rw [array_indexOf_eq, ← List.findIdx?_eq_none_iff]
  cases items.findIdx? (strictEquals · v) with
  | none => simp [placeValue]
  | some i => simpa [placeValue] using ofCount_ne_minusOne i

/-- The place of a value in an array is that of the first part strictly equal to it. -/
theorem array_indexOf_of_first {items : List Value} {v : Value} {i : Nat} (hi : i < items.length)
    (hfound : items[i].strictEquals v = true)
    (hbefore : ∀ j (hj : j < i), items[j].strictEquals v = false) :
    (Value.array items).call (.string "indexOf") [v] = ofCount i := by
  have hfirst : items.findIdx? (strictEquals · v) = some i :=
    List.findIdx?_eq_some_iff_getElem.2 ⟨hi, hfound, fun j hj => by simp [hbefore j hj]⟩
  rw [array_indexOf_eq, hfirst, placeValue]

/-- Two arrays, or two objects, are strictly equal if they have the same places, or names, and the
parts there are strictly equal and no numbers that differ in form. What an array includes, and
where, is a matter of strict equality alone. -/
theorem strictEquals_by_parts (xs ys : List Value) {fields fields' : List (String × Value)}
    (hfields : NameMap.InOrder fields) (hfields' : NameMap.InOrder fields') (v : Value) :
    (strictEquals (.array xs) (.array ys) = true ↔
      xs.length = ys.length ∧ ∀ i (hx : i < xs.length) (hy : i < ys.length),
        xs[i].strictEquals ys[i] = true ∧ xs[i].sameForm ys[i] = true) ∧
    (strictEquals (.object fields) (.object fields') = true ↔
      (∀ name, name ∈ NameMap.names fields ↔ name ∈ NameMap.names fields') ∧
      ∀ name a b, NameMap.find? name fields = some a → NameMap.find? name fields' = some b →
        a.strictEquals b = true ∧ a.sameForm b = true) ∧
    ((Value.array xs).call (.string "includes") [v] = .ok (.bool true) ↔
      ∃ item ∈ xs, item.strictEquals v = true) ∧
    ((Value.array xs).call (.string "indexOf") [v] = .ok (.int (-1)) ↔
      ∀ item ∈ xs, item.strictEquals v = false) ∧
    ∀ i (hi : i < xs.length), xs[i].strictEquals v = true →
      (∀ j (hj : j < i), xs[j].strictEquals v = false) →
      (Value.array xs).call (.string "indexOf") [v] = ofCount i :=
  ⟨array_strictEquals_iff, object_strictEquals_iff hfields hfields', array_includes_iff,
    array_indexOf_eq_minusOne_iff, fun _ hi => array_indexOf_of_first hi⟩

/-- The integer and the double are told apart in an object, and yet the one is found as the other in
an array. -/
theorem strictEquals_by_parts_sample :
    strictEquals (.object [("a", .int 1)]) (.object [("a", .number (.float (.ofNat 1)))]) = false ∧
    (Value.array [.null, .int 1]).call (.string "includes") [.number (.float (.ofNat 1))] =
      .ok (.bool true) := by
  have hone (v : Value) : NameMap.InOrder [("a", v)] := List.pairwise_singleton _ _
  obtain ⟨-, hobject, hincludes, -⟩ :=
    strictEquals_by_parts [.null, .int 1] [] (hone (.int 1)) (hone (.number (.float (.ofNat 1))))
      (.number (.float (.ofNat 1)))
  constructor
  · rw [← Bool.not_eq_true, hobject]
    rintro ⟨-, hparts⟩
    have hform := (hparts "a" _ _ rfl rfl).2
    cases hform
  · exact hincludes.2 ⟨.int 1, List.mem_cons_of_mem _ List.mem_cons_self, by decide +kernel⟩

/-- One as an integer and one as a double are strictly equal, and yet two arrays with nothing but
them are not. Two great integers that one double stands for part in the same way. -/
theorem equal_parts_without_equality :
    strictEquals (.int 1) (.number (.float (.ofNat 1))) = true ∧
    strictEquals (.array [.int 1]) (.array [.number (.float (.ofNat 1))]) = false ∧
    strictEquals (.int (2 ^ 53)) (.int (2 ^ 53 + 1)) = true ∧
    strictEquals (.array [.int (2 ^ 53)]) (.array [.int (2 ^ 53 + 1)]) = false ∧
    ¬ ∀ xs ys : List Value, strictEquals (.array xs) (.array ys) = true ↔
      xs.length = ys.length ∧ ∀ i (hx : i < xs.length) (hy : i < ys.length),
        xs[i].strictEquals ys[i] = true := by
  have hone : strictEquals (.int 1) (.number (.float (.ofNat 1))) = true := by decide +kernel
  refine ⟨hone, by decide +kernel, by decide +kernel, by decide +kernel, ?_⟩
  intro hall
  have hequal := (hall [.int 1] [.number (.float (.ofNat 1))]).2 ⟨rfl, fun i hx hy => by
    obtain rfl : i = 0 := Nat.lt_one_iff.1 hx
    exact hone⟩
  cases hequal

end Value

end SigilExpr
