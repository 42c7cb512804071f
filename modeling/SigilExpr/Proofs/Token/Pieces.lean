import Mathlib.Data.List.Forall2
import Mathlib.Data.Nat.Digits.Defs
import SigilExpr.Proofs.Token.Spelling

/-!
# The pieces of a string literal

What stands between two quotes is a sequence of pieces: a character that stands for itself, or an
escape. A literal is read if pieces and its quote stand at the front of the text, and then it means
what the pieces mean, one after the other; nothing else is read. Every text is the meaning of some
pieces, between quotes of either kind.

Half of a surrogate pair is NOT a character, so an escape with its code is no piece.
-/

set_option autoImplicit false

namespace SigilExpr

open Text

namespace NumberLiteral

/-- The character is the digit of a value below sixteen, in either case. -/
def HexDigit (c : Char) (value : Nat) : Prop :=
  value < 16 ∧ (c = Nat.digitChar value ∨ c = (Nat.digitChar value).toUpper)

/-- The digits spell the natural, the first digit counting most. -/
def HexNumeral (ds : List Char) (n : Nat) : Prop :=
  ∃ values, List.Forall₂ HexDigit ds values ∧ Nat.ofDigits 16 values.reverse = n

theorem hexDigit_of_isHexDigit {c : Char} (h : isHexDigit c = true) : HexDigit c (hexValue c) := by
  have hall : ∀ n < 128, isHexDigit (Char.ofNat n) = true →
      hexValue (Char.ofNat n) < 16 ∧ (Char.ofNat n = Nat.digitChar (hexValue (Char.ofNat n)) ∨
        Char.ofNat n = (Nat.digitChar (hexValue (Char.ofNat n))).toUpper) := by
    decide
  have hascii : c.toNat < 127 := (printable_of_isHexDigit h).2
  have hdigit := hall c.toNat (by omega)
  rw [Char.ofNat_toNat] at hdigit
  exact hdigit h

theorem hexDigit_iff {c : Char} {value : Nat} :
    HexDigit c value ↔ isHexDigit c = true ∧ hexValue c = value := by
  constructor
  · have hall : ∀ v < 16,
        (isHexDigit (Nat.digitChar v) = true ∧ hexValue (Nat.digitChar v) = v) ∧
        (isHexDigit (Nat.digitChar v).toUpper = true ∧ hexValue (Nat.digitChar v).toUpper = v) := by
      decide
    rintro ⟨hlt, rfl | rfl⟩
    · exact (hall value hlt).1
    · exact (hall value hlt).2
  · rintro ⟨h, rfl⟩
    exact hexDigit_of_isHexDigit h

theorem forall₂_hexDigit_iff {ds : List Char} {values : List Nat} :
    List.Forall₂ HexDigit ds values ↔
      (∀ c ∈ ds, isHexDigit c = true) ∧ values = ds.map hexValue := by
  constructor
  · intro h
    induction h with
    | nil => simp
    | cons hc _ ih =>
      obtain ⟨hdigit, rfl⟩ := hexDigit_iff.1 hc
      obtain ⟨hds, rfl⟩ := ih
      exact ⟨List.forall_mem_cons.2 ⟨hdigit, hds⟩, rfl⟩
  · rintro ⟨hds, rfl⟩
    rw [List.forall₂_map_right_iff, List.forall₂_same]
    exact fun c hc => hexDigit_of_isHexDigit (hds c hc)

theorem hexNumeral_iff {ds : List Char} {n : Nat} :
    HexNumeral ds n ↔ (∀ c ∈ ds, isHexDigit c = true) ∧ ofHexDigits ds = n := by
  have hvalue : Nat.ofDigits 16 (ds.map hexValue).reverse = ofHexDigits ds := by
    simp [Nat.ofDigits_eq_foldr, ofHexDigits, List.foldl_map, Nat.add_comm]
  simp only [HexNumeral, forall₂_hexDigit_iff]
  constructor
  · rintro ⟨_, ⟨hds, rfl⟩, rfl⟩
    exact ⟨hds, hvalue.symm⟩
  · rintro ⟨hds, rfl⟩
    exact ⟨_, ⟨hds, rfl⟩, hvalue⟩

end NumberLiteral

namespace Quoted

open NumberLiteral

/-- The letters that stand for control characters behind a backslash. -/
def controls : List (Char × Char) := [('n', '\n'), ('t', '\t'), ('r', '\r'), ('0', '\x00')]

/-- What may stand between two quotes, one piece after the other. -/
inductive Piece (quote : Char) where
  | plain (c : Char) (h : c ≠ quote ∧ c ≠ '\\' ∧ c ≠ '\n')
  | control (letter c : Char) (h : (letter, c) ∈ controls)
  | codePoint (x y z w c : Char) (h : HexNumeral [x, y, z, w] c.toNat)
  | lineBreak
  | itself (c : Char) (h : c ∉ ['n', 't', 'r', '0', 'u', '\n'])

namespace Piece

variable {quote : Char}

def text : Piece quote → List Char
  | plain c _ => [c]
  | control letter _ _ => ['\\', letter]
  | codePoint x y z w _ _ => ['\\', 'u', x, y, z, w]
  | lineBreak => ['\\', '\n']
  | itself c _ => ['\\', c]

def meaning : Piece quote → List Char
  | plain c _ => [c]
  | control _ c _ => [c]
  | codePoint _ _ _ _ c _ => [c]
  | lineBreak => []
  | itself c _ => [c]

end Piece

variable {quote : Char} {start offset n : Nat} {cs m : List Char}

theorem code?_eq_some_iff {x y z w : Char} {code : Nat} :
    code? x y z w = some code ↔ HexNumeral [x, y, z, w] code := by
  rw [hexNumeral_iff, ← List.all_eq_true, code?]
  split <;> simp_all

theorem isScalar_toNat (c : Char) : isScalar c.toNat = true := by
  have hvalid : c.toNat.isValidChar := c.valid
  simpa [isScalar, Nat.isValidChar] using hvalid

theorem toNat_ofNat_of_isScalar {code : Nat} (h : isScalar code = true) :
    (Char.ofNat code).toNat = code := by
  have hvalid : code.isValidChar := by simpa [isScalar, Nat.isValidChar] using h
  rw [Char.ofNat, dif_pos hvalid]
  rfl

theorem control?_eq_some_iff {letter c : Char} :
    control? letter = some c ↔ (letter, c) ∈ controls := by
  unfold control?
  split <;> simp_all [controls, eq_comm]

theorem control?_eq_none_iff {letter : Char} :
    control? letter = none ↔ letter ∉ ['n', 't', 'r', '0'] := by
  unfold control?
  split <;> simp_all

theorem read_letter (hquote : quote ≠ '\\') {e : Char} (hu : e ≠ 'u') (hn : e ≠ '\n')
    (start offset : Nat) (cs : List Char) :
    read quote start offset ('\\' :: e :: cs) =
      piece [(control? e).getD e] 2 (read quote start (offset + 1 + e.utf8Size) cs) := by
  rw [read, if_neg hquote.symm, if_pos rfl]
  · exact hu
  · exact hn

/-- A character behind a backslash means itself if no escape begins with it. -/
theorem not_mem_letters_iff {c : Char} :
    c ∉ ['n', 't', 'r', '0', 'u', '\n'] ↔ control? c = none ∧ c ≠ 'u' ∧ c ≠ '\n' := by
  simp [control?_eq_none_iff, and_assoc]

theorem read_piece (hquote : quote ≠ '\\') (p : Piece quote) (start offset : Nat)
    (cs : List Char) :
    ∃ offset', read quote start offset (p.text ++ cs) =
      piece p.meaning p.text.length (read quote start offset' cs) := by
  cases p with
  | plain c h => exact ⟨_, read_plain h.1 h.2.1 h.2.2 start offset cs⟩
  | control letter c h =>
    have hcontrol := control?_eq_some_iff.2 h
    have hu : letter ≠ 'u' := by
      rintro rfl
      cases hcontrol
    have hn : letter ≠ '\n' := by
      rintro rfl
      cases hcontrol
    refine ⟨offset + 1 + letter.utf8Size, ?_⟩
    have hread := read_letter hquote hu hn start offset cs
    rwa [hcontrol] at hread
  | codePoint x y z w c h =>
    refine ⟨offset + 6, ?_⟩
    simp [read, hquote.symm, code?_eq_some_iff.2 h, isScalar_toNat, Piece.text, Piece.meaning]
  | lineBreak => exact ⟨offset + 2, by simp [read, hquote.symm, Piece.text, Piece.meaning]⟩
  | itself c h =>
    obtain ⟨hcontrol, hu, hn⟩ := not_mem_letters_iff.1 h
    refine ⟨offset + 1 + c.utf8Size, ?_⟩
    have hread := read_letter hquote hu hn start offset cs
    rwa [hcontrol] at hread

/-- The text of a sequence of pieces. -/
def textOf (ps : List (Piece quote)) : List Char := ps.flatMap Piece.text

/-- What a sequence of pieces means. -/
def meaningOf (ps : List (Piece quote)) : List Char := ps.flatMap Piece.meaning

theorem read_pieces (hquote : quote ≠ '\\') (ps : List (Piece quote)) (start offset : Nat)
    (rest : List Char) :
    read quote start offset (textOf ps ++ quote :: rest) =
      .ok (meaningOf ps, (textOf ps).length + 1) := by
  induction ps generalizing offset with
  | nil => exact read_quote quote start offset rest
  | cons p ps ih =>
    obtain ⟨offset', hread⟩ := read_piece hquote p start offset (textOf ps ++ quote :: rest)
    have htext : textOf (p :: ps) = p.text ++ textOf ps := List.flatMap_cons
    rw [htext, List.append_assoc, hread, ih, piece, List.length_append, Nat.add_assoc]
    rfl

/-- The text begins with pieces of the meaning, and behind them the `n`-th character is the closing
quote. -/
def Consists (quote : Char) (cs m : List Char) (n : Nat) : Prop :=
  ∃ (ps : List (Piece quote)) (rest : List Char),
    cs = textOf ps ++ quote :: rest ∧ m = meaningOf ps ∧ n = (textOf ps).length + 1

theorem consists_of_piece {p : Piece quote} {k : Nat} {x : Except Fault (List Char × Nat)}
    (h : piece p.meaning k x = .ok (m, n)) (hk : k = p.text.length)
    (ih : ∀ {m n}, x = .ok (m, n) → Consists quote cs m n) :
    Consists quote (p.text ++ cs) m n := by
  obtain ⟨m', l, hread, rfl, rfl⟩ := exists_of_piece h
  obtain ⟨ps, rest, rfl, rfl, rfl⟩ := ih hread
  exact ⟨p :: ps, rest, by simp [textOf], rfl, by simp [textOf, hk, Nat.add_assoc]⟩

theorem consists_of_read (h : read quote start offset cs = .ok (m, n)) :
    Consists quote cs m n := by
  fun_induction read quote start offset cs generalizing m n with
  | case1 offset | case3 offset hq | case4 offset x y z w rest hcode hq
  | case6 offset x y z w rest code hcode hscalar hq | case7 offset ds hds hq
  | case10 offset cs hq hslash => cases h
  | case2 offset cs =>
    cases h
    exact ⟨[], cs, rfl, rfl, rfl⟩
  | case5 offset x y z w rest code hcode hscalar hq ih =>
    have hvalue : HexNumeral [x, y, z, w] (Char.ofNat code).toNat := by
      rw [toNat_ofNat_of_isScalar hscalar]
      exact code?_eq_some_iff.1 hcode
    exact consists_of_piece (p := .codePoint x y z w (Char.ofNat code) hvalue) h rfl ih
  | case8 offset rest hq ih => exact consists_of_piece (p := .lineBreak) h rfl ih
  | case9 offset e rest hu hn hq ih =>
    cases hcontrol : control? e with
    | some c =>
      rw [hcontrol] at h
      exact consists_of_piece (p := .control e c (control?_eq_some_iff.1 hcontrol)) h rfl ih
    | none =>
      rw [hcontrol] at h
      have hletters := not_mem_letters_iff.2 ⟨hcontrol, hu, hn⟩
      exact consists_of_piece (p := .itself e hletters) h rfl ih
  | case11 offset c cs hq hslash hn ih =>
    exact consists_of_piece (p := .plain c ⟨hq, hslash, hn⟩) h rfl ih

theorem read_eq_ok_iff (hquote : quote ≠ '\\') :
    read quote start offset cs = .ok (m, n) ↔ Consists quote cs m n := by
  refine ⟨consists_of_read, ?_⟩
  rintro ⟨ps, rest, rfl, rfl, rfl⟩
  exact read_pieces hquote ps start offset rest

/-- There is one place only where a literal may close. -/
theorem textOf_append_inj (hquote : quote ≠ '\\') {ps qs : List (Piece quote)} {r r' : List Char}
    (h : textOf ps ++ quote :: r = textOf qs ++ quote :: r') :
    textOf ps = textOf qs ∧ meaningOf ps = meaningOf qs ∧ r = r' := by
  have hps := read_pieces hquote ps 0 0 r
  rw [h, read_pieces hquote qs] at hps
  obtain ⟨hmeaning, hlength⟩ := Prod.mk.inj (Except.ok.inj hps)
  obtain ⟨htext, hrest⟩ := List.append_inj h (by omega)
  exact ⟨htext, hmeaning.symm, (List.cons.inj hrest).2⟩

theorem eq_quote_or_backslash {c : Char} (hplain : ¬ (c ≠ quote ∧ c ≠ '\\' ∧ c ≠ '\n'))
    (hbreak : c ≠ '\n') : c = quote ∨ c = '\\' := by
  by_contra hne
  rw [not_or] at hne
  exact hplain ⟨hne.1, hne.2, hbreak⟩

/-- A piece that means the character. -/
def Piece.ofChar (hquote : quote ∉ ['n', 't', 'r', '0', 'u', '\n']) (c : Char) : Piece quote :=
  if hplain : c ≠ quote ∧ c ≠ '\\' ∧ c ≠ '\n' then .plain c hplain
  else if hbreak : c = '\n' then .control 'n' '\n' (by decide)
  else .itself c (by
    rcases eq_quote_or_backslash hplain hbreak with rfl | rfl
    · exact hquote
    · decide)

@[simp] theorem Piece.meaning_ofChar (hquote : quote ∉ ['n', 't', 'r', '0', 'u', '\n']) (c : Char) :
    (ofChar hquote c).meaning = [c] := by
  unfold ofChar
  split
  · rfl
  · split
    · next hbreak =>
      subst hbreak
      rfl
    · rfl

theorem meaningOf_map_ofChar (hquote : quote ∉ ['n', 't', 'r', '0', 'u', '\n']) (s : List Char) :
    meaningOf (s.map (Piece.ofChar hquote)) = s := by
  simp [meaningOf, List.flatMap_map]

end Quoted

open Quoted

section Literal

variable {quote : Char} (hquote : quote = '"' ∨ quote = '\'')

include hquote

/-- A string literal is read if its quote closes a sequence of pieces. -/
theorem Lexeme.scan_pieces_iff (offset : Nat) (cs : List Char) (l : Lexeme) (n : Nat) :
    scan offset (quote :: cs) = .ok (l, n) ↔
      ∃ (ps : List (Piece quote)) (rest : List Char), cs = textOf ps ++ quote :: rest ∧
        l = .string (String.ofList (meaningOf ps)) ∧ n = (textOf ps).length + 2 := by
  have hslash : quote ≠ '\\' := by
    rcases hquote with rfl | rfl <;> decide
  simp only [scan_quote hquote, read_eq_ok_iff hslash]
  constructor
  · rintro ⟨_, _, ⟨ps, rest, rfl, rfl, rfl⟩, rfl, rfl⟩
    exact ⟨ps, rest, rfl, rfl, rfl⟩
  · rintro ⟨ps, rest, rfl, rfl, rfl⟩
    exact ⟨_, _, ⟨ps, rest, rfl, rfl, rfl⟩, rfl, rfl⟩

/-- The source that is one literal, with pieces that mean the string. -/
theorem Token.ofSource_pieces {ps : List (Piece quote)} {s : String}
    (hmeaning : meaningOf ps = s.toList) :
    ofSource (quote :: (textOf ps ++ [quote])) =
      .ok [⟨.string s, ⟨0, byteLength (quote :: (textOf ps ++ [quote]))⟩⟩,
        endAt (byteLength (quote :: (textOf ps ++ [quote])))] := by
  have hblank : isBlank quote = false := by
    rcases hquote with rfl | rfl <;> rfl
  have hword : Lexeme.scan 0 (quote :: (textOf ps ++ [quote]) ++ ([] ++ [])) =
      .ok (.string s, (quote :: (textOf ps ++ [quote])).length) :=
    (Lexeme.scan_pieces_iff hquote 0 _ _ _).2 ⟨ps, [], by simp, by simp [hmeaning], by simp⟩
  have hrow := Row.word (by simp) (stops_cons hblank _) hword .nil
  rw [List.append_nil, Nat.zero_add] at hrow
  exact ofSource_eq_ok_iff.2 ⟨_, rfl, hrow⟩

/-- A string literal is read if its quote closes a sequence of pieces, and it means what they mean.
There is one such place only, and every text has a literal, between quotes of either kind. -/
theorem literals_consist_of_pieces :
    (∀ (offset : Nat) (cs : List Char) (l : Lexeme) (n : Nat),
      Lexeme.scan offset (quote :: cs) = .ok (l, n) ↔
        ∃ (ps : List (Piece quote)) (rest : List Char), cs = textOf ps ++ quote :: rest ∧
          l = .string (String.ofList (meaningOf ps)) ∧ n = (textOf ps).length + 2) ∧
    (∀ (ps qs : List (Piece quote)) (r r' : List Char),
      textOf ps ++ quote :: r = textOf qs ++ quote :: r' →
        textOf ps = textOf qs ∧ meaningOf ps = meaningOf qs ∧ r = r') ∧
    ∀ s : String, ∃ ps : List (Piece quote), meaningOf ps = s.toList ∧
      Token.ofSource (quote :: (textOf ps ++ [quote])) =
        .ok [⟨.string s, ⟨0, byteLength (quote :: (textOf ps ++ [quote]))⟩⟩,
          Token.endAt (byteLength (quote :: (textOf ps ++ [quote])))] := by
  have hslash : quote ≠ '\\' := by
    rcases hquote with rfl | rfl <;> decide
  have hletters : quote ∉ ['n', 't', 'r', '0', 'u', '\n'] := by
    rcases hquote with rfl | rfl <;> decide
  refine ⟨Lexeme.scan_pieces_iff hquote, fun _ _ _ _ => textOf_append_inj hslash, ?_⟩
  intro s
  have hmeaning := meaningOf_map_ofChar hletters s.toList
  exact ⟨_, hmeaning, Token.ofSource_pieces hquote hmeaning⟩

end Literal

/-- A quote behind a backslash does not close the literal, and a hidden line break means nothing. -/
theorem literals_consist_of_pieces_sample :
    Lexeme.scan 3 "'\\'\\u00E9\\\nz\\q' x".toList = .ok (.string "'ézq", 15) := by
  have hquote : '\'' = '"' ∨ '\'' = '\'' := .inr rfl
  refine ((literals_consist_of_pieces hquote).1 3 _ _ _).2
    ⟨[.itself '\'' (by decide), .codePoint '0' '0' 'E' '9' 'é' (Quoted.code?_eq_some_iff.1 rfl),
      .lineBreak, .plain 'z' (by decide), .itself 'q' (by decide)], " x".toList, ?_, ?_, ?_⟩
  · rfl
  · rfl
  · rfl

end SigilExpr
