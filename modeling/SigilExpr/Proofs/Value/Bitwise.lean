import SigilExpr.Proofs.Binary64.Words
import SigilExpr.Proofs.Value.Integers

/-!
# Bitwise operators on integers

The operands of a bitwise operator are cut down to words of 32 bits, and its result is an integer
that the resulting word stands for: around zero, but not negative after a shift that draws in zeros.
An integer that goes back in is cut down to the same word again. So operators that take the results
of others compute with words all the way.
-/

set_option autoImplicit false

namespace SigilExpr

/-- The operators that take two words. -/
inductive WordOp where
  | and
  | or
  | xor
  | shl
  | shr
  | ushr

namespace WordOp

def operator : WordOp → BinaryOp
  | and => .bitAnd
  | or => .bitOr
  | xor => .bitXor
  | shl => .shl
  | shr => .shr
  | ushr => .ushr

/-- The places that a second operand shifts by. -/
def places (b : Int) : Nat := (b % 32).toNat

/-- What an operator comes to in integer arithmetic. -/
def onIntegers (op : WordOp) (a b : Int) : Int :=
  match op with
  | and => Int.land (Word.signed a) (Word.signed b)
  | or => Int.lor (Word.signed a) (Word.signed b)
  | xor => Int.xor (Word.signed a) (Word.signed b)
  | shl => Word.signed (Word.signed a * pow2 (places b))
  | shr => Word.signed a / pow2 (places b)
  | ushr => Word.unsigned a / pow2 (places b)

def onWords (op : WordOp) (x y : BitVec 32) : BitVec 32 :=
  match op with
  | and => x &&& y
  | or => x ||| y
  | xor => x ^^^ y
  | shl => x <<< Value.shiftCount y
  | shr => x.sshiftRight (Value.shiftCount y)
  | ushr => x >>> Value.shiftCount y

/-- The integer that a resulting word stands for. -/
def outcome (op : WordOp) (x : BitVec 32) : Int :=
  match op with
  | ushr => x.toNat
  | and | or | xor | shl | shr => x.toInt

/-- The range of the results. -/
def Fits (op : WordOp) (n : Int) : Prop :=
  match op with
  | ushr => 0 ≤ n ∧ n < pow2 32
  | and | or | xor | shl | shr => -(pow2 31 : Int) ≤ n ∧ n < pow2 31

theorem fits_outcome (op : WordOp) (x : BitVec 32) : op.Fits (op.outcome x) := by
  cases op with
  | ushr => exact ⟨Int.natCast_nonneg _, Int.ofNat_lt.2 x.isLt⟩
  | and | or | xor | shl | shr => exact ⟨BitVec.le_toInt x, BitVec.toInt_lt⟩

theorem ofInt_outcome (op : WordOp) (x : BitVec 32) : BitVec.ofInt 32 (op.outcome x) = x := by
  cases op with
  | ushr => exact (BitVec.ofInt_natCast 32 x.toNat).trans (BitVec.ofNat_toNat 32 x |>.trans (by simp))
  | and | or | xor | shl | shr => exact BitVec.ofInt_toInt

theorem shiftCount_ofInt (b : Int) : Value.shiftCount (BitVec.ofInt 32 b) = places b := by
  have hresidue : (((BitVec.ofInt 32 b).toNat % 32 : Nat) : Int) = b % 32 := by
    rw [Int.natCast_emod, Word.toNat_ofInt, Word.unsigned]
    exact Int.emod_emod_of_dvd b (by decide)
  rw [Value.shiftCount, places, ← hresidue, Int.toNat_natCast]

/-- An operator on words is the operator on integers that are cut down to words. -/
theorem outcome_onWords (op : WordOp) (a b : Int) :
    op.outcome (op.onWords (BitVec.ofInt 32 a) (BitVec.ofInt 32 b)) = op.onIntegers a b := by
  cases op with
  | and => simp only [outcome, onWords, onIntegers, Word.toInt_and, Word.toInt_ofInt]
  | or => simp only [outcome, onWords, onIntegers, Word.toInt_or, Word.toInt_ofInt]
  | xor => simp only [outcome, onWords, onIntegers, Word.toInt_xor, Word.toInt_ofInt]
  | shl =>
    simp only [outcome, onWords, onIntegers, shiftCount_ofInt, Word.toInt_shiftLeft,
      Word.toInt_ofInt]
  | shr =>
    simp only [outcome, onWords, onIntegers, shiftCount_ofInt, Word.toInt_sshiftRight,
      Word.toInt_ofInt]
  | ushr =>
    simp only [outcome, onWords, onIntegers, shiftCount_ofInt, Word.toNat_ushiftRight,
      Int.natCast_ediv, Word.toNat_ofInt]

end WordOp

namespace Value

variable {v w : Value} {x y : BitVec 32} {a b n : Int}

theorem IsInteger.toWord (h : v.IsInteger n) : v.toWord = .ok (BitVec.ofInt 32 n) := by
  obtain ⟨d, hd, hn⟩ := h.toNumber
  have hword : d.toWord = BitVec.ofInt 32 n :=
    Binary64.toWord_of_truncate? (Binary64.truncate?_of_toInt? hn) (.inr h.natAbs_le)
  rw [Value.toWord, hd, ← hword]
  rfl

/-- A result is small enough to go back in as it is. -/
theorem isInteger_of_bounds (h : -(pow2 32 : Int) ≤ n ∧ n < pow2 32) : (Value.int n).IsInteger n := by
  refine isInteger_int ?_
  have hword : (pow2 32 : Int) = 4294967296 := rfl
  have hsafe : pow2 53 = 9007199254740992 := rfl
  omega

theorem isInteger_outcome (op : WordOp) (x : BitVec 32) :
    (Value.int (op.outcome x)).IsInteger (op.outcome x) := by
  have hword : (pow2 32 : Int) = 2 * pow2 31 := rfl
  have hpos : (0 : Int) < pow2 31 := by decide
  have hfits := op.fits_outcome x
  refine isInteger_of_bounds ?_
  cases op with
  | ushr => exact ⟨by have := hfits.1; omega, hfits.2⟩
  | and | or | xor | shl | shr => exact ⟨by have := hfits.1; omega, by have := hfits.2; omega⟩

/-- A word is small enough to come back from double precision as it is. -/
theorem ofResult_outcome (op : WordOp) (x : BitVec 32) :
    ofResult (.ofInt (op.outcome x)) = .ok (.int (op.outcome x)) := by
  have hsmall := (isInteger_outcome op x).natAbs_le
  exact ofResult_of_toInt? (Binary64.toInt?_ofInt hsmall) hsmall

theorem applyBinary_of_toWord (hv : v.toWord = .ok x) (hw : w.toWord = .ok y) (op : WordOp) :
    v.applyBinary op.operator w = .ok (.int (op.outcome (op.onWords x y))) := by
  have hbitwise (f : BitVec 32 → BitVec 32 → Int) : bitwise f v w = ofResult (.ofInt (f x y)) := by
    rw [bitwise, hv, hw]
    rfl
  rw [← ofResult_outcome]
  cases op <;> exact hbitwise _

theorem applyUnary_of_toWord (hv : v.toWord = .ok x) :
    v.applyUnary .bitNot = .ok (.int (~~~x).toInt) := by
  rw [applyUnary, hv]
  exact ofResult_outcome .and (~~~x)

end Value

/-- Operators on integers, on the results of operators and so on. -/
inductive WordTerm where
  | operand (v : Value) (n : Int) (h : v.IsInteger n)
  | not (t : WordTerm)
  | apply (op : WordOp) (t u : WordTerm)

namespace WordTerm

/-- The result of the outermost operator on the results of the others. -/
def value : WordTerm → Except RuntimeError Value
  | operand v _ _ => .ok v
  | not t => do (← t.value).applyUnary .bitNot
  | apply op t u => do (← t.value).applyBinary op.operator (← u.value)

/-- The same computed with words alone. -/
def word : WordTerm → BitVec 32
  | operand _ n _ => BitVec.ofInt 32 n
  | not t => ~~~t.word
  | apply op t u => op.onWords t.word u.word

/-- The value is an integer that is cut down to the word. -/
def Yields (t : WordTerm) (x : BitVec 32) : Prop :=
  ∃ v n, t.value = .ok v ∧ v.IsInteger n ∧ BitVec.ofInt 32 n = x

variable {t u : WordTerm} {x y : BitVec 32}

theorem Yields.value_not (h : t.Yields x) : t.not.value = .ok (.int (~~~x).toInt) := by
  obtain ⟨v, n, hv, hn, rfl⟩ := h
  rw [value, hv]
  exact Value.applyUnary_of_toWord hn.toWord

theorem Yields.value_apply (ht : t.Yields x) (hu : u.Yields y) (op : WordOp) :
    (apply op t u).value = .ok (.int (op.outcome (op.onWords x y))) := by
  obtain ⟨v, a, hv, ha, rfl⟩ := ht
  obtain ⟨w, b, hw, hb, rfl⟩ := hu
  rw [value, hv, hw]
  exact Value.applyBinary_of_toWord ha.toWord hb.toWord op

/-- Operators that take the results of others compute with words all the way. -/
theorem yields_word (t : WordTerm) : t.Yields t.word := by
  induction t with
  | operand v n h => exact ⟨v, n, rfl, h, rfl⟩
  | not t ih =>
    exact ⟨_, _, ih.value_not, Value.isInteger_outcome .and _, WordOp.ofInt_outcome .and _⟩
  | apply op t u iht ihu =>
    exact ⟨_, _, iht.value_apply ihu op, Value.isInteger_outcome op _, op.ofInt_outcome _⟩

end WordTerm

namespace Value

variable {v w : Value} {a b : Int}

theorem applyBinary_of_isInteger (hv : v.IsInteger a) (hw : w.IsInteger b) (op : WordOp) :
    v.applyBinary op.operator w = .ok (.int (op.onIntegers a b)) := by
  rw [applyBinary_of_toWord hv.toWord hw.toWord, WordOp.outcome_onWords]

theorem applyUnary_of_isInteger (hv : v.IsInteger a) :
    v.applyUnary .bitNot = .ok (.int (Int.lnot (Word.signed a))) := by
  rw [applyUnary_of_toWord hv.toWord, Word.toInt_not, Word.toInt_ofInt]

/--
A bitwise operator on integers of at most `2 ^ 53` in size gives the result of integer arithmetic on
their residues modulo `2 ^ 32`, which lies in the range of words and depends on the residues only.
Operators on such results compute with words: a complement of a complement, and an exclusive or with
the same operand twice, leave the word of the first operand.
-/
theorem bitwise_is_word_arithmetic (hv : v.IsInteger a) (hw : w.IsInteger b) :
    (∀ op : WordOp, v.applyBinary op.operator w = .ok (.int (op.onIntegers a b)) ∧
      op.Fits (op.onIntegers a b)) ∧
    (v.applyUnary .bitNot = .ok (.int (Int.lnot (Word.signed a))) ∧
      -(pow2 31 : Int) ≤ Int.lnot (Word.signed a) ∧ Int.lnot (Word.signed a) < pow2 31) ∧
    (∀ {v' w' : Value} {a' b' : Int}, v'.IsInteger a' → w'.IsInteger b' →
      Word.unsigned a' = Word.unsigned a → Word.unsigned b' = Word.unsigned b →
      (∀ op : WordOp, v'.applyBinary op.operator w' = v.applyBinary op.operator w) ∧
        v'.applyUnary .bitNot = v.applyUnary .bitNot) ∧
    (∀ t u : WordTerm,
      (∀ op : WordOp,
        (WordTerm.apply op t u).value = .ok (.int (op.outcome (op.onWords t.word u.word)))) ∧
      t.not.value = .ok (.int (~~~t.word).toInt)) ∧
    (do (← v.applyUnary .bitNot).applyUnary .bitNot) = v.applyBinary .bitOr (.int 0) ∧
    (do (← v.applyBinary .bitXor w).applyBinary .bitXor w) = v.applyBinary .bitOr (.int 0) := by
  have hzero : (Value.int 0).IsInteger 0 := isInteger_int (Nat.zero_le _)
  let s := WordTerm.operand v a hv
  let t := WordTerm.operand w b hw
  let zero := WordTerm.operand (.int 0) 0 hzero
  have hor : v.applyBinary .bitOr (.int 0) = .ok (.int (BitVec.ofInt 32 a).toInt) := by
    refine ((s.yields_word).value_apply zero.yields_word .or).trans ?_
    exact congrArg (fun x : BitVec 32 => Except.ok (Value.int x.toInt)) BitVec.or_zero
  refine ⟨fun op => ⟨applyBinary_of_isInteger hv hw op, ?_⟩,
    ⟨applyUnary_of_isInteger hv, ?_⟩, ?_, ?_, ?_, ?_⟩
  · rw [← WordOp.outcome_onWords]
    exact op.fits_outcome _
  · rw [← Word.toInt_ofInt, ← Word.toInt_not]
    exact WordOp.fits_outcome .and _
  · intro v' w' a' b' hv' hw' ha hb
    rw [applyUnary_of_toWord hv.toWord, applyUnary_of_toWord hv'.toWord, Word.ofInt_congr ha]
    refine ⟨fun op => ?_, rfl⟩
    rw [applyBinary_of_toWord hv.toWord hw.toWord, applyBinary_of_toWord hv'.toWord hw'.toWord,
      Word.ofInt_congr ha, Word.ofInt_congr hb]
  · intro t u
    exact ⟨t.yields_word.value_apply u.yields_word, t.yields_word.value_not⟩
  · rw [hor]
    refine (s.not.yields_word).value_not.trans ?_
    exact congrArg (fun x : BitVec 32 => Except.ok (Value.int x.toInt)) BitVec.not_not
  · rw [hor]
    refine ((WordTerm.apply .xor s t).yields_word.value_apply t.yields_word .xor).trans ?_
    exact congrArg (fun x : BitVec 32 => Except.ok (Value.int x.toInt))
      (BitVec.xor_assoc _ _ _ |>.trans (by rw [BitVec.xor_self, BitVec.xor_zero]; rfl))

/-- A double that has the residue 5, and a shift by minus one, which is a shift by 31 places. -/
theorem bitwise_is_word_arithmetic_sample :
    (Value.number (.float (.finite false 4503599632613376 (-20)))).IsInteger 4294967301 ∧
    (Value.int (-1)).IsInteger (-1) ∧
    (Value.number (.float (.finite false 4503599632613376 (-20)))).applyBinary .shl (.int (-1)) =
      .ok (.int (-2147483648)) ∧
    (Value.number (.float (.finite false 4503599632613376 (-20)))).applyUnary .bitNot =
      .ok (.int (-6)) := by
  have hv : (Value.number (.float (.finite false 4503599632613376 (-20)))).IsInteger 4294967301 :=
    ⟨_, rfl, by decide, by decide⟩
  have hw : (Value.int (-1)).IsInteger (-1) := isInteger_int (by decide)
  have h := bitwise_is_word_arithmetic hv hw
  exact ⟨hv, hw, (h.1 .shl).1, h.2.1.1⟩

end Value

end SigilExpr
