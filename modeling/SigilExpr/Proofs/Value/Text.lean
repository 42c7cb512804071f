import SigilExpr.Proofs.Decimal.Layout
import SigilExpr.Value.Text

/-!
# The texts of constants

The text of a literal is the text of no other literal, also where something follows it that does not
make a numeral longer. A string is read back character by character up to its closing quote.
-/

set_option autoImplicit false

namespace SigilExpr

open Decimal

namespace Number

variable {m n : Number} {u v : List Char}

/-- An integer that is not negative, or a finite double without a sign in its canonical form. -/
def Unsigned : Number → Prop
  | .int n => 0 ≤ n
  | .float x => x.Unsigned ∧ x.isFinite = true

theorem nonneg_of_toInt? {x : Binary64} {k : Int} (hx : x.isNegative = false)
    (h : x.toInt? = some k) : x.isFinite = true ∧ 0 ≤ k := by
  cases x with
  | finite negative m e =>
    obtain rfl : negative = false := hx
    rw [Binary64.toInt?] at h
    split at h
    · obtain rfl := Option.some.inj h
      exact ⟨rfl, Int.natCast_nonneg _⟩
    · cases h
  | _ => cases h

theorem unsigned_of_ofBinary64? {x : Binary64} (hx : x.Unsigned) (h : ofBinary64? x = some n) :
    n.Unsigned := by
  unfold ofBinary64? at h
  split at h
  · next k hk =>
    obtain ⟨hfinite, hnonneg⟩ := nonneg_of_toInt? hx.2 hk
    split at h
    · cases h
      exact hnonneg
    · cases h
      exact ⟨hx, hfinite⟩
  · split at h
    · next hfinite =>
      cases h
      exact ⟨hx, hfinite⟩
    · cases h

/-- The numeral that is a number's text. -/
inductive Spelled : Number → Numeral → Prop where
  | int (n : Nat) : Spelled (.int n)
      ⟨Nat.toDigits 10 n, [], none, Nat.toDigits_ne_nil, isDigit_of_mem_toDigits,
        fun _ h => by cases h⟩
  | float {m : Nat} {e : Int} {k : Numeral} : (Binary64.finite false m e).Canonical →
      Around m e k.value → k.fraction ≠ [] ∨ k.power ≠ none → Spelled (.float (.finite false m e)) k

theorem Unsigned.exists_numeral (h : n.Unsigned) :
    ∃ k : Numeral, n.text.toList = k.text ∧ Spelled n k := by
  rcases n with i | _ | negative | ⟨negative, m, e⟩
  · obtain ⟨n, rfl⟩ := Int.eq_ofNat_of_zero_le h
    refine ⟨_, ?_, .int n⟩
    have htext : (Number.int n).text = String.ofList (Nat.toDigits 10 n) :=
      Nat.toString_eq_ofList_toDigits
    simp [htext, Numeral.text, Numeral.fractionText, Numeral.powerText]
  · cases h.2
  · cases h.2
  · obtain ⟨⟨hcanonical, hsign⟩, -⟩ := h
    obtain rfl : negative = false := hsign
    obtain ⟨k, hk, haround, hmarked⟩ := exists_write hcanonical
    exact ⟨k, hk, .float hcanonical haround hmarked⟩

theorem Unsigned.exists_digit (h : n.Unsigned) :
    ∃ d ds, n.text.toList = d :: ds ∧ d.isDigit = true := by
  obtain ⟨k, hk, -⟩ := h.exists_numeral
  rw [hk]
  exact k.exists_digit

theorem Spelled.unique {k : Numeral} (hm : Spelled m k) (hn : Spelled n k) : m = n := by
  cases hm with
  | int i =>
    generalize hk : Numeral.mk _ _ _ _ _ _ = k at hn
    cases hn with
    | int j =>
      obtain ⟨hdigits, -, -⟩ := Numeral.mk.inj hk
      rw [toDigits_injective hdigits]
    | float _ _ hmarked =>
      subst hk
      simp at hmarked
  | float hcanonical haround hmarked =>
    cases hn with
    | int j => simp at hmarked
    | float hcanonical' haround' _ =>
      obtain ⟨rfl, rfl⟩ := haround.unique haround' hcanonical hcanonical'
      rfl

theorem text_append_inj (hm : m.Unsigned) (hn : n.Unsigned) (hu : Numeral.Ends u)
    (hv : Numeral.Ends v) (h : m.text.toList ++ u = n.text.toList ++ v) : m = n ∧ u = v := by
  obtain ⟨k, hk, hmk⟩ := hm.exists_numeral
  obtain ⟨l, hl, hnl⟩ := hn.exists_numeral
  rw [hk, hl] at h
  obtain ⟨rfl, huv⟩ := Numeral.text_append_inj hu hv h
  exact ⟨hmk.unique hnl, huv⟩

end Number

namespace Text

/-- The character that an escape of one letter stands for. -/
def unescaped (c : Char) : Char :=
  if c = 'b' then '\x08' else if c = 'f' then '\x0c' else if c = 'n' then '\n'
  else if c = 'r' then '\r' else if c = 't' then '\t' else c

/-- Reads back what is written inside quotes for one character. -/
def unquoted? : List Char → Option (Char × List Char)
  | '\\' :: 'u' :: _ :: _ :: a :: b :: rest =>
    some (Char.ofNat (NumberLiteral.ofHexDigits [a, b]), rest)
  | '\\' :: c :: rest => some (unescaped c, rest)
  | c :: rest => some (c, rest)
  | [] => none

theorem ofHexDigits_digitChar {n : Nat} (h : n < 0x20) :
    NumberLiteral.ofHexDigits [Nat.digitChar (n / 16), Nat.digitChar (n % 16)] = n := by
  decide +revert

/-- A character is escaped by a letter or by its code, or it stands for itself. -/
theorem quotedChar_cases (c : Char) :
    (∃ d, quotedChar c = ['\\', d] ∧ d ≠ 'u' ∧ unescaped d = c) ∨
    (quotedChar c = ['\\', 'u', '0', '0', Nat.digitChar (c.toNat / 16),
      Nat.digitChar (c.toNat % 16)] ∧ c.toNat < 0x20) ∨
    (quotedChar c = [c] ∧ c ≠ '\\' ∧ c ≠ '"') := by
  by_cases hletter : c ∈ ['"', '\\', '\x08', '\x0c', '\n', '\r', '\t']
  · left
    simp only [List.mem_cons, List.not_mem_nil, or_false] at hletter
    rcases hletter with rfl | rfl | rfl | rfl | rfl | rfl | rfl
    all_goals exact ⟨_, rfl, by decide, rfl⟩
  · right
    simp only [List.mem_cons, List.not_mem_nil, or_false, not_or] at hletter
    by_cases hcode : c.toNat < 0x20
    · exact .inl ⟨by simp [quotedChar, hletter, hcode], hcode⟩
    · exact .inr ⟨by simp [quotedChar, hletter, hcode], hletter.2.1, hletter.1⟩

theorem unquoted?_quotedChar (c : Char) (rest : List Char) :
    unquoted? (quotedChar c ++ rest) = some (c, rest) := by
  rcases quotedChar_cases c with ⟨d, hd, hu, rfl⟩ | ⟨hc, hcode⟩ | ⟨hc, hslash, -⟩
  · rw [hd]
    simp [unquoted?, hu]
  · rw [hc]
    simp only [List.cons_append, List.nil_append, unquoted?, ofHexDigits_digitChar hcode,
      Char.ofNat_toNat]
  · rw [hc]
    simp [unquoted?, hslash]

/-- No character is written as the closing quote. -/
theorem exists_quotedChar (c : Char) : ∃ d ds, quotedChar c = d :: ds ∧ d ≠ '"' := by
  rcases quotedChar_cases c with ⟨d, hd, -, -⟩ | ⟨hc, -⟩ | ⟨hc, -, hquote⟩
  · exact ⟨_, _, hd, by decide⟩
  · exact ⟨_, _, hc, by decide⟩
  · exact ⟨_, _, hc, hquote⟩

theorem flatMap_quotedChar_inj {s t u v : List Char}
    (h : s.flatMap quotedChar ++ '"' :: u = t.flatMap quotedChar ++ '"' :: v) : s = t ∧ u = v := by
  induction s generalizing t with
  | nil =>
    cases t with
    | nil => exact ⟨rfl, (List.cons.inj h).2⟩
    | cons d t =>
      obtain ⟨e, es, he, hne⟩ := exists_quotedChar d
      rw [List.flatMap_cons, he] at h
      exact absurd (List.cons.inj h).1.symm hne
  | cons c s ih =>
    cases t with
    | nil =>
      obtain ⟨e, es, he, hne⟩ := exists_quotedChar c
      rw [List.flatMap_cons, he] at h
      exact absurd (List.cons.inj h).1 hne
    | cons d t =>
      rw [List.flatMap_cons, List.flatMap_cons, List.append_assoc, List.append_assoc] at h
      have hread := congrArg unquoted? h
      rw [unquoted?_quotedChar, unquoted?_quotedChar] at hread
      obtain ⟨rfl, htail⟩ := Prod.mk.inj (Option.some.inj hread)
      obtain ⟨rfl, huv⟩ := ih htail
      exact ⟨rfl, huv⟩

theorem toList_quoted (s : String) :
    (quoted s).toList = '"' :: (s.toList.flatMap quotedChar ++ ['"']) := by
  simp [quoted]

theorem quoted_append_inj {s t : String} {u v : List Char}
    (h : (quoted s).toList ++ u = (quoted t).toList ++ v) : s = t ∧ u = v := by
  simp only [toList_quoted, List.cons_append, List.append_assoc] at h
  obtain ⟨hst, huv⟩ := flatMap_quotedChar_inj (List.cons.inj h).2
  exact ⟨String.toList_injective hst, huv⟩

end Text

namespace Value

/-- A value that a literal may be. -/
def Literal : Value → Prop
  | .null | .bool _ | .string _ => True
  | .number n => n.Unsigned
  | .array _ | .object _ => False

/-- How the text of a literal begins. -/
def initial : Value → Option Char
  | .null => some 'n'
  | .bool b => some (if b then 't' else 'f')
  | .string _ => some '"'
  | _ => none

/-- The text begins with its mark, or with a digit where it is that of a number. -/
theorem Literal.exists_initial {v : Value} (hv : v.Literal) :
    ∃ c cs, v.text.toList = c :: cs ∧
      (initial v = some c ∨ initial v = none ∧ c.isDigit = true) := by
  cases v with
  | null => exact ⟨'n', _, rfl, .inl rfl⟩
  | bool b => cases b <;> exact ⟨_, _, rfl, .inl rfl⟩
  | string s => exact ⟨_, _, Text.toList_quoted s, .inl rfl⟩
  | number n =>
    obtain ⟨d, ds, htext, hd⟩ := Number.Unsigned.exists_digit hv
    exact ⟨d, ds, htext, .inr ⟨rfl, hd⟩⟩
  | array _ => cases hv
  | object _ => cases hv

theorem isDigit_of_initial {v : Value} {c : Char} (h : initial v = some c) : c.isDigit = false := by
  cases v with
  | null | string _ =>
    obtain rfl := Option.some.inj h
    rfl
  | bool b =>
    obtain rfl := Option.some.inj h
    cases b <;> rfl
  | _ => cases h

theorem Literal.initial_eq {v w : Value} {s t : List Char} (hv : v.Literal) (hw : w.Literal)
    (h : v.text.toList ++ s = w.text.toList ++ t) : initial v = initial w := by
  obtain ⟨c, cs, hc, hv⟩ := hv.exists_initial
  obtain ⟨d, ds, hd, hw⟩ := hw.exists_initial
  rw [hc, hd] at h
  obtain ⟨rfl, -⟩ := List.cons.inj h
  rcases hv with hv | ⟨hv, hdigit⟩ <;> rcases hw with hw | ⟨hw, hdigit'⟩
  · rw [hv, hw]
  · rw [isDigit_of_initial hv] at hdigit'
    cases hdigit'
  · rw [isDigit_of_initial hw] at hdigit
    cases hdigit
  · rw [hv, hw]

theorem text_append_inj {v w : Value} {s t : List Char} (hv : v.Literal) (hw : w.Literal)
    (hs : Numeral.Ends s) (ht : Numeral.Ends t) (h : v.text.toList ++ s = w.text.toList ++ t) :
    v = w ∧ s = t := by
  have hinitial := hv.initial_eq hw h
  cases v with
  | null =>
    cases w with
    | null => exact ⟨rfl, List.append_cancel_left h⟩
    | bool b => cases b <;> cases hinitial
    | _ => cases hinitial
  | bool b =>
    cases w with
    | bool c =>
      obtain rfl : b = c := by
        cases b <;> cases c <;> first | rfl | cases hinitial
      exact ⟨rfl, List.append_cancel_left h⟩
    | _ => cases b <;> cases hinitial
  | string a =>
    cases w with
    | string b =>
      obtain ⟨rfl, hst⟩ := Text.quoted_append_inj h
      exact ⟨rfl, hst⟩
    | bool b => cases b <;> cases hinitial
    | _ => cases hinitial
  | number m =>
    cases w with
    | number n =>
      obtain ⟨rfl, hst⟩ := Number.text_append_inj hv hw hs ht h
      exact ⟨rfl, hst⟩
    | array _ | object _ => cases hw
    | _ => cases hinitial
  | array _ => cases hv
  | object _ => cases hv

end Value

end SigilExpr
