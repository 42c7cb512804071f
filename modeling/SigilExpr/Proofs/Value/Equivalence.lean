import SigilExpr.Proofs.Binary64.Quantity
import SigilExpr.Proofs.Value.Canonical
import SigilExpr.Proofs.Value.Equality

/-!
# Equality as a relation

Strict equality is symmetric and transitive, and it is reflexive on values whose numbers are finite.
Loose equality has more pairs: it is reflexive there and symmetric, and it differs from strict
equality only where two primitive values of different kinds are compared.

Loose equality is NOT transitive: `true` is equal to `"1"` and to `"1.0"`, which are two strings.
-/

set_option autoImplicit false

namespace SigilExpr

namespace Number

/-- Whether a number is no infinity and not the double that is no number. -/
def Finite : Number → Prop
  | .int _ => True
  | .float x => x.isFinite = true

instance : (n : Number) → Decidable n.Finite
  | .int _ => inferInstanceAs (Decidable True)
  | .float x => inferInstanceAs (Decidable (x.isFinite = true))

theorem Finite.toBinary64_ne_nan {n : Number} (h : n.Finite) : n.toBinary64 ≠ .nan := by
  cases n with
  | int n => exact Binary64.ofInt_ne_nan n
  | float x =>
    rintro rfl
    cases h

theorem same_self {n : Number} (h : n.Finite) : n.same n = true := by
  have hequals := Binary64.equals_self h.toBinary64_ne_nan
  cases n <;> simp_all [same, toBinary64]

theorem same_comm (m n : Number) : m.same n = n.same m := by
  cases m <;> cases n <;> simp [same, Binary64.equals_comm, BEq.comm]

theorem same_trans {m n k : Number} (hmn : m.same n = true) (hnk : n.same k = true) :
    m.same k = true := by
  rw [same_eq, Bool.and_eq_true] at hmn hnk ⊢
  refine ⟨Binary64.equals_trans hmn.1 hnk.1, ?_⟩
  cases m <;> cases n <;> cases k <;> simp_all [sameForm]

end Number

namespace Value

/-- All numbers in the value are finite. -/
def Finite (v : Value) : Prop := ∀ n ∈ v.numbers, n.Finite

instance (v : Value) : Decidable v.Finite :=
  inferInstanceAs (Decidable (∀ n ∈ v.numbers, n.Finite))

mutual

theorem same_self : (v : Value) → v.Finite → v.same v = true
  | .null, _ | .bool _, _ | .string _, _ => by simp [same]
  | .number n, h => Number.same_self (h n (by simp [numbers]))
  | .array items, h => sameAll_self items (forall_mem_numbersAll_iff.1 h)
  | .object fields, h => sameFields_self fields (forall_mem_numbersOfFields_iff.1 h)

theorem sameAll_self : (vs : List Value) → (∀ v ∈ vs, v.Finite) → sameAll vs vs = true
  | [], _ => rfl
  | v :: vs, h => by
    obtain ⟨hv, hvs⟩ := List.forall_mem_cons.1 h
    simp [sameAll, same_self v hv, sameAll_self vs hvs]

theorem sameFields_self : (fields : List (String × Value)) → (∀ field ∈ fields, field.2.Finite) →
    sameFields fields fields = true
  | [], _ => rfl
  | (k, v) :: fields, h => by
    obtain ⟨hv, hfields⟩ := List.forall_mem_cons.1 h
    simp [sameFields, same_self v hv, sameFields_self fields hfields]

end

mutual

theorem same_comm : (v w : Value) → v.same w = w.same v
  | .null, w => by cases w <;> rfl
  | .bool a, w => by cases w <;> simp [same, BEq.comm]
  | .string s, w => by cases w <;> simp [same, BEq.comm]
  | .number m, w => by cases w <;> simp [same, Number.same_comm]
  | .array xs, w => by cases w <;> simp [same, sameAll_comm xs]
  | .object xs, w => by cases w <;> simp [same, sameFields_comm xs]

theorem sameAll_comm : (vs ws : List Value) → sameAll vs ws = sameAll ws vs
  | [], ws => by cases ws <;> rfl
  | v :: vs, ws => by cases ws <;> simp [sameAll, same_comm v, sameAll_comm vs]

theorem sameFields_comm : (xs ys : List (String × Value)) → sameFields xs ys = sameFields ys xs
  | [], ys => by cases ys <;> rfl
  | (k, x) :: xs, ys => by
    rcases ys with _ | ⟨⟨l, y⟩, ys⟩ <;> simp [sameFields, same_comm x, sameFields_comm xs, BEq.comm]

end

section

variable {w : Value}

theorem null_same_iff : Value.null.same w = true ↔ w = .null := by
  cases w <;> simp [same]

theorem bool_same_iff {b : Bool} : (Value.bool b).same w = true ↔ w = .bool b := by
  cases w <;> simp [same, eq_comm (a := b)]

theorem string_same_iff {s : String} : (Value.string s).same w = true ↔ w = .string s := by
  cases w <;> simp [same, eq_comm (a := s)]

theorem number_same_iff {m : Number} :
    (Value.number m).same w = true ↔ ∃ n, w = .number n ∧ m.same n = true := by
  cases w <;> simp [same]

theorem array_same_iff {xs : List Value} :
    (Value.array xs).same w = true ↔ ∃ ys, w = .array ys ∧ sameAll xs ys = true := by
  cases w <;> simp [same]

theorem object_same_iff {xs : List (String × Value)} :
    (Value.object xs).same w = true ↔ ∃ ys, w = .object ys ∧ sameFields xs ys = true := by
  cases w <;> simp [same]

end

mutual

theorem same_trans : (v w x : Value) → v.same w = true → w.same x = true → v.same x = true
  | .null, w, x, hvw, hwx => by
    obtain rfl := null_same_iff.1 hvw
    exact hwx
  | .bool b, w, x, hvw, hwx => by
    obtain rfl := bool_same_iff.1 hvw
    exact hwx
  | .string s, w, x, hvw, hwx => by
    obtain rfl := string_same_iff.1 hvw
    exact hwx
  | .number m, w, x, hvw, hwx => by
    obtain ⟨n, rfl, hmn⟩ := number_same_iff.1 hvw
    obtain ⟨k, rfl, hnk⟩ := number_same_iff.1 hwx
    exact number_same_iff.2 ⟨k, rfl, Number.same_trans hmn hnk⟩
  | .array xs, w, x, hvw, hwx => by
    obtain ⟨ys, rfl, hys⟩ := array_same_iff.1 hvw
    obtain ⟨zs, rfl, hzs⟩ := array_same_iff.1 hwx
    exact array_same_iff.2 ⟨zs, rfl, sameAll_trans xs ys zs hys hzs⟩
  | .object xs, w, x, hvw, hwx => by
    obtain ⟨ys, rfl, hys⟩ := object_same_iff.1 hvw
    obtain ⟨zs, rfl, hzs⟩ := object_same_iff.1 hwx
    exact object_same_iff.2 ⟨zs, rfl, sameFields_trans xs ys zs hys hzs⟩

theorem sameAll_trans : (xs ys zs : List Value) →
    sameAll xs ys = true → sameAll ys zs = true → sameAll xs zs = true
  | [], [], _, _, hyz => hyz
  | x :: xs, y :: ys, z :: zs, hxy, hyz => by
    simp only [sameAll, Bool.and_eq_true] at hxy hyz ⊢
    exact ⟨same_trans x y z hxy.1 hyz.1, sameAll_trans xs ys zs hxy.2 hyz.2⟩

theorem sameFields_trans : (xs ys zs : List (String × Value)) →
    sameFields xs ys = true → sameFields ys zs = true → sameFields xs zs = true
  | [], [], _, _, hyz => hyz
  | (k, x) :: xs, (l, y) :: ys, (m, z) :: zs, hxy, hyz => by
    simp only [sameFields, Bool.and_eq_true, beq_iff_eq] at hxy hyz ⊢
    exact ⟨⟨hxy.1.1.trans hyz.1.1, same_trans x y z hxy.1.2 hyz.1.2⟩,
      sameFields_trans xs ys zs hxy.2 hyz.2⟩

end

theorem kind_eq_of_strictEquals {v w : Value} (h : v.strictEquals w = true) : v.kind = w.kind := by
  cases v <;> cases w <;> first | rfl | cases h

theorem strictEquals_eq_same {v : Value} (hv : v.kind ≠ .number) (w : Value) :
    v.strictEquals w = v.same w := by
  cases v with
  | number n => exact absurd rfl hv
  | _ => rfl

theorem strictEquals_self {v : Value} (h : v.Finite) : v.strictEquals v = true := by
  cases v with
  | number n => exact Binary64.equals_self (h n (by simp [numbers])).toBinary64_ne_nan
  | _ => exact same_self _ h

theorem strictEquals_comm (v w : Value) : v.strictEquals w = w.strictEquals v := by
  cases v with
  | number m =>
    cases w with
    | number n => exact Binary64.equals_comm _ _
    | _ => rfl
  | _ => cases w <;> exact same_comm _ _

theorem strictEquals_trans {v w x : Value} (hvw : v.strictEquals w = true)
    (hwx : w.strictEquals x = true) : v.strictEquals x = true := by
  have hv := kind_eq_of_strictEquals hvw
  have hw := kind_eq_of_strictEquals hwx
  by_cases hnumber : v.kind = .number
  · cases v <;> cases hnumber
    cases w <;> cases hv
    cases x <;> cases hw
    exact Binary64.equals_trans hvw hwx
  · rw [strictEquals_eq_same hnumber] at hvw ⊢
    rw [strictEquals_eq_same (hv ▸ hnumber)] at hwx
    exact same_trans v w x hvw hwx

theorem numbersEqual_comm (v w : Value) : v.numbersEqual w = w.numbersEqual v := by
  unfold numbersEqual
  cases v.toNumber <;> cases w.toNumber <;> simp [Binary64.equals_comm]

theorem comparesAsNumbers_comm (k l : Kind) : comparesAsNumbers k l = comparesAsNumbers l k := by
  cases k <;> cases l <;> rfl

theorem looseEquals_comm (v w : Value) : v.looseEquals w = w.looseEquals v := by
  unfold looseEquals
  rw [numbersEqual_comm, comparesAsNumbers_comm, strictEquals_comm, Bool.or_comm, Bool.and_assoc,
    Bool.and_comm v.isPrimitive, ← Bool.and_assoc]
  simp only [eq_comm]

theorem numbersEqual_bool (a b : Bool) :
    numbersEqual (.bool a) (.bool b) = strictEquals (.bool a) (.bool b) := by
  cases a <;> cases b <;> decide +kernel

/-- Values of one kind are compared strictly. Booleans alone are compared as the numbers that they
stand for, and these are two. -/
theorem looseEquals_of_kind_eq {v w : Value} (h : v.kind = w.kind) :
    v.looseEquals w = v.strictEquals w := by
  cases v <;> cases w <;> cases h
  case bool a b => exact numbersEqual_bool a b
  all_goals rfl

/-- What has parts is compared strictly, whatever it is compared with. -/
theorem looseEquals_of_not_primitive {v : Value} (hv : v.isPrimitive = false) (w : Value) :
    v.looseEquals w = v.strictEquals w := by
  cases v <;> cases hv <;> cases w <;> rfl

theorem isPrimitive_eq_false_iff {v : Value} :
    v.isPrimitive = false ↔ v.kind = .array ∨ v.kind = .object := by
  cases v <;> simp [isPrimitive, kind]

theorem looseEquals_of_strictEquals {v w : Value} (h : v.strictEquals w = true) :
    v.looseEquals w = true := by
  rw [looseEquals_of_kind_eq (kind_eq_of_strictEquals h), h]

/-- Strict equality is an equivalence relation on values with finite numbers. Loose equality is
reflexive there, symmetric, and holds wherever strict equality does; it is strict equality wherever
the kinds are the same or one of them is not primitive. -/
theorem equality_is_lawful {v : Value} (hv : v.Finite) (w x : Value) :
    v.strictEquals v = true ∧ v.strictEquals w = w.strictEquals v ∧
    (v.strictEquals w = true → w.strictEquals x = true → v.strictEquals x = true) ∧
    v.looseEquals v = true ∧ v.looseEquals w = w.looseEquals v ∧
    (v.strictEquals w = true → v.looseEquals w = true) ∧
    (v.kind = w.kind ∨ (v.kind = .array ∨ v.kind = .object) ∨
      (w.kind = .array ∨ w.kind = .object) → v.looseEquals w = v.strictEquals w) := by
  refine ⟨strictEquals_self hv, strictEquals_comm v w, strictEquals_trans,
    looseEquals_of_strictEquals (strictEquals_self hv), looseEquals_comm v w,
    looseEquals_of_strictEquals, ?_⟩
  rintro (h | h | h)
  · exact looseEquals_of_kind_eq h
  · exact looseEquals_of_not_primitive (isPrimitive_eq_false_iff.2 h) w
  · rw [looseEquals_comm, strictEquals_comm]
    exact looseEquals_of_not_primitive (isPrimitive_eq_false_iff.2 h) v

/-- One as an integer, as a double, and as a text that a boolean is compared with. -/
theorem equality_is_lawful_sample :
    Finite (.array [.int 1, .number (.float (.ofNat 1))]) ∧
    strictEquals (.array [.int 1, .number (.float (.ofNat 1))])
      (.array [.int 1, .number (.float (.ofNat 1))]) = true ∧
    strictEquals (.number (.float (.ofNat 1))) (.int 1) = true ∧
    looseEquals (.string "1.0") (.bool true) = true ∧
    strictEquals (.string "1.0") (.bool true) = false := by
  have hfinite : Finite (.array [.int 1, .number (.float (.ofNat 1))]) := by decide +kernel
  have hone : strictEquals (.int 1) (.number (.float (.ofNat 1))) = true := by decide +kernel
  have htrue : looseEquals (.bool true) (.string "1.0") = true := by decide +kernel
  obtain ⟨hself, -⟩ := equality_is_lawful hfinite .null .null
  obtain ⟨-, hcomm, -⟩ :=
    equality_is_lawful (v := .int 1) (by decide +kernel) (.number (.float (.ofNat 1))) .null
  obtain ⟨-, -, -, -, hloose, -⟩ :=
    equality_is_lawful (v := .bool true) (by decide +kernel) (.string "1.0") .null
  exact ⟨hfinite, hself, hcomm ▸ hone, hloose ▸ htrue, rfl⟩

/-- Loose equality is not transitive. -/
example : looseEquals (.string "1") (.bool true) = true ∧
    looseEquals (.bool true) (.string "1.0") = true ∧
    looseEquals (.string "1") (.string "1.0") = false := by decide +kernel

end Value

end SigilExpr
