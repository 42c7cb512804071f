import SigilExpr.Value.Method
import SigilExpr.Value.Operate
import SigilExpr.Value.Property

/-!
# Faults of operations on values

An operator, the read of a property and the call of a method fail only over the values that they
are given. In particular none of them gives an error about a helper: such errors come from the
evaluation itself. The operators that are not allowed fail over any values.
-/

set_option autoImplicit false

namespace SigilExpr

/-- Whether an error depends on values: it is neither about a helper nor about an operator that
no values have. -/
def RuntimeError.isOverValues : RuntimeError → Bool
  | .helper _ _ | .missingHelper _ | .type (.unsupported _) => false
  | .notAnObject _ _ | .notCallable _ | .type _ | .arithmetic _ => true

/-- The result is a value or an error over values. -/
def FailsOverValues {α : Type} (x : Except RuntimeError α) : Prop :=
  ∀ ⦃error⦄, x = .error error → error.isOverValues = true

namespace FailsOverValues

variable {α β : Type}

theorem ok (a : α) : FailsOverValues (.ok a) := by
  intro error h
  cases h

theorem error {e : RuntimeError} (he : e.isOverValues = true) :
    FailsOverValues (.error e : Except RuntimeError α) := by
  intro error h
  cases h
  exact he

theorem bind {x : Except RuntimeError α} {f : α → Except RuntimeError β}
    (hx : FailsOverValues x) (hf : ∀ a, FailsOverValues (f a)) : FailsOverValues (x >>= f) := by
  cases x with
  | ok a => exact hf a
  | error e => exact error (hx rfl)

theorem ite {p : Prop} [Decidable p] {x y : Except RuntimeError α} (hx : FailsOverValues x)
    (hy : FailsOverValues y) : FailsOverValues (if p then x else y) := by
  split
  · exact hx
  · exact hy

theorem ne_missing {x : Except RuntimeError α} (hx : FailsOverValues x) (name : String) :
    x ≠ .error (.missingHelper name) := by
  intro h
  have hname := hx h
  cases hname

end FailsOverValues

namespace Value

theorem failsOverValues_toNumber (v : Value) : FailsOverValues v.toNumber := by
  unfold toNumber
  split
  case h_4 s =>
    split
    · exact .ok _
    · split
      · exact .ok _
      · exact .error rfl
  case h_5 => exact .error rfl
  case h_6 => exact .error rfl
  all_goals exact .ok _

theorem failsOverValues_ofResult (x : Binary64) : FailsOverValues (ofResult x) := by
  unfold ofResult
  split
  · exact .ok _
  · exact .error rfl

theorem failsOverValues_ofCount (n : Nat) : FailsOverValues (ofCount n) :=
  failsOverValues_ofResult _

theorem failsOverValues_placeValue (place : Option Nat) : FailsOverValues (placeValue place) := by
  cases place with
  | none => exact .ok _
  | some i => exact failsOverValues_ofCount i

theorem failsOverValues_toWord (v : Value) : FailsOverValues v.toWord :=
  v.failsOverValues_toNumber.bind fun _ => .ok _

theorem failsOverValues_applyUnary (v : Value) {op : UnaryOp} (h : op.isAllowed = true) :
    FailsOverValues (v.applyUnary op) := by
  cases op with
  | neg | plus => exact v.failsOverValues_toNumber.bind fun x => failsOverValues_ofResult _
  | not => exact .ok _
  | bitNot => exact v.failsOverValues_toWord.bind fun _ => failsOverValues_ofResult _
  | typeof | void | delete => cases h

theorem applyUnary_eq_unsupported (v : Value) {op : UnaryOp} (h : op.isAllowed = false) :
    v.applyUnary op = .error (.type (.unsupported op.spelling)) := by
  cases op with
  | typeof | void | delete => rfl
  | _ => cases h

theorem applyUnary_ne_missing (v : Value) (op : UnaryOp) (name : String) :
    v.applyUnary op ≠ .error (.missingHelper name) := by
  cases h : op.isAllowed with
  | true => exact (v.failsOverValues_applyUnary h).ne_missing name
  | false => simp [v.applyUnary_eq_unsupported h]

theorem failsOverValues_ordered (accept : Ordering → Bool) (v w : Value) :
    FailsOverValues (ordered accept v w) := by
  unfold ordered
  split
  · exact .ok _
  · exact v.failsOverValues_toNumber.bind fun _ =>
      w.failsOverValues_toNumber.bind fun _ => .ok _

theorem failsOverValues_arithmetic (f : Binary64 → Binary64 → Binary64) (v w : Value) :
    FailsOverValues (arithmetic f v w) :=
  v.failsOverValues_toNumber.bind fun _ =>
    w.failsOverValues_toNumber.bind fun _ => failsOverValues_ofResult _

theorem failsOverValues_divide (f : Binary64 → Binary64 → Binary64) (zero : ArithmeticFault)
    (v w : Value) : FailsOverValues (divide f zero v w) := by
  refine w.failsOverValues_toNumber.bind fun y => ?_
  exact .ite (.error rfl) (v.failsOverValues_toNumber.bind fun _ => failsOverValues_ofResult _)

theorem failsOverValues_bitwise (f : BitVec 32 → BitVec 32 → Int) (v w : Value) :
    FailsOverValues (bitwise f v w) :=
  v.failsOverValues_toWord.bind fun _ =>
    w.failsOverValues_toWord.bind fun _ => failsOverValues_ofResult _

theorem failsOverValues_applyBinary (v : Value) {op : BinaryOp} (h : op.isAllowed = true)
    (w : Value) : FailsOverValues (v.applyBinary op w) := by
  cases op with
  | add => exact .ite (.ok _) (failsOverValues_arithmetic _ v w)
  | sub | mul => exact failsOverValues_arithmetic _ v w
  | div | mod => exact failsOverValues_divide _ _ v w
  | eq | notEq | strictEq | strictNotEq => exact .ok _
  | lt | lte | gt | gte => exact failsOverValues_ordered _ v w
  | shl | shr | ushr | bitAnd | bitOr | bitXor => exact failsOverValues_bitwise _ v w
  | isIn | instanceOf => cases h

theorem applyBinary_eq_unsupported (v : Value) {op : BinaryOp} (h : op.isAllowed = false)
    (w : Value) : v.applyBinary op w = .error (.type (.unsupported op.spelling)) := by
  cases op with
  | isIn | instanceOf => rfl
  | _ => cases h

theorem applyBinary_ne_missing (v : Value) (op : BinaryOp) (w : Value) (name : String) :
    v.applyBinary op w ≠ .error (.missingHelper name) := by
  cases h : op.isAllowed with
  | true => exact (v.failsOverValues_applyBinary h w).ne_missing name
  | false => simp [v.applyBinary_eq_unsupported h]

theorem failsOverValues_property (object key : Value) :
    FailsOverValues (object.property key) := by
  cases object with
  | object fields => exact .ok _
  | array items | string s => exact .ite (failsOverValues_ofCount _) (.ok _)
  | null | bool b | number n => exact .error rfl

theorem failsOverValues_placeArgument (length missing : Nat) (argument : Option Value) :
    FailsOverValues (placeArgument length missing argument) := by
  unfold placeArgument
  split
  · exact .ok _
  · exact .ok _
  · next v _ => exact v.failsOverValues_toNumber.bind fun _ => .ok _

theorem failsOverValues_sliceOf {α : Type} (xs : List α) (args : List Value) :
    FailsOverValues (sliceOf xs args) :=
  (failsOverValues_placeArgument _ _ _).bind fun _ =>
    (failsOverValues_placeArgument _ _ _).bind fun _ => .ok _

theorem failsOverValues_toFixed (n : Number) (args : List Value) :
    FailsOverValues (toFixed n args) := by
  refine (failsOverValues_toNumber _).bind fun places => ?_
  split
  · exact .ite (.error rfl) (.ok _)
  · exact .error rfl

theorem failsOverValues_callString (s name : String) (args : List Value) :
    FailsOverValues (callString s name args) := by
  unfold callString
  split
  case h_7 => exact failsOverValues_placeValue _
  case h_8 => exact (failsOverValues_sliceOf _ args).bind fun _ => .ok _
  case h_9 => exact .error rfl
  all_goals exact .ok _

theorem failsOverValues_callArray (items : List Value) (name : String) (args : List Value) :
    FailsOverValues (callArray items name args) := by
  unfold callArray
  split
  case h_2 => exact failsOverValues_placeValue _
  case h_4 => exact (failsOverValues_sliceOf _ args).bind fun _ => .ok _
  case h_5 => exact .error rfl
  all_goals exact .ok _

theorem failsOverValues_call (receiver method : Value) (args : List Value) :
    FailsOverValues (receiver.call method args) := by
  cases receiver with
  | null => exact .error rfl
  | number n => exact .ite (failsOverValues_toFixed n args) (.ite (.ok _) (.error rfl))
  | string s => exact .ite (.ok _) (failsOverValues_callString s _ args)
  | array items => exact .ite (.ok _) (failsOverValues_callArray items _ args)
  | bool b | object fields => exact .ite (.ok _) (.error rfl)

end Value

end SigilExpr
