import Mathlib.Algebra.Order.Field.Rat
import SigilExpr.Decimal.Layout
import SigilExpr.Proofs.Decimal.Shortest
import SigilExpr.Proofs.Token.Literal

/-!
# Numerals

A numeral is its digits before and after the point and perhaps a power of ten; a point stands in it
only before a digit. Where no digit, no point before a digit and no power follow, a text that begins
with a numeral begins with no other one.
-/

set_option autoImplicit false

namespace SigilExpr.Decimal

open Text

theorem ofDigits_eq_ofDigitChars (ds : List Char) : ofDigits ds = Nat.ofDigitChars 10 ds 0 := by
  induction ds using List.reverseRecOn with
  | nil => rfl
  | append_singleton ds d ih =>
    rw [ofDigits_concat, ih, Nat.ofDigitChars_append]
    rfl

theorem ofDigits_toDigits (n : Nat) : ofDigits (Nat.toDigits 10 n) = n := by
  rw [ofDigits_eq_ofDigitChars, Nat.ofDigitChars_ten_toDigits]

theorem ofDigits_append (ds es : List Char) :
    ofDigits (ds ++ es) = ofDigits ds * 10 ^ es.length + ofDigits es := by
  simp only [ofDigits_eq_ofDigitChars, Nat.ofDigitChars_append]
  rw [Nat.ofDigitChars_eq_ofDigitChars_zero, Nat.mul_comm]

theorem ofDigits_zeros (n : Nat) : ofDigits (zeros n) = 0 := by
  rw [ofDigits_eq_ofDigitChars, zeros, Nat.ofDigitChars_replicate_zero, Nat.mul_zero]

theorem isDigit_of_mem_toDigits {n : Nat} : ∀ c ∈ Nat.toDigits 10 n, c.isDigit = true :=
  fun _ => Nat.isDigit_of_mem_toDigits (by decide) (by decide)

theorem toDigits_injective {m n : Nat} (h : Nat.toDigits 10 m = Nat.toDigits 10 n) : m = n := by
  rw [← ofDigits_toDigits m, h, ofDigits_toDigits]

/-- The parts of a number's text. -/
structure Numeral where
  whole : List Char
  fraction : List Char
  power : Option Int
  whole_ne : whole ≠ []
  whole_digits : ∀ c ∈ whole, c.isDigit = true
  fraction_digits : ∀ c ∈ fraction, c.isDigit = true

namespace Numeral

variable {n k : Numeral} {u v : List Char}

def fractionText (ds : List Char) : List Char :=
  if ds = [] then [] else '.' :: ds

def signOf (e : Int) : Char :=
  if e < 0 then '-' else '+'

def powerText : Option Int → List Char
  | none => []
  | some e => 'e' :: signOf e :: Nat.toDigits 10 e.natAbs

def text (n : Numeral) : List Char :=
  n.whole ++ (fractionText n.fraction ++ powerText n.power)

def value (n : Numeral) : ℚ :=
  ofDigits (n.whole ++ n.fraction) * 10 ^ (n.power.getD 0 - n.fraction.length)

/-- No numeral is longer for what follows it. -/
structure Ends (u : List Char) : Prop where
  digit : NumberLiteral.begins u = false
  power : Stops (· == 'e') u

/-- A numeral begins with a digit. -/
theorem exists_digit (n : Numeral) : ∃ d ds, n.text = d :: ds ∧ d.isDigit = true := by
  obtain ⟨d, ds, hwhole⟩ := List.exists_cons_of_ne_nil n.whole_ne
  refine ⟨d, ds ++ (fractionText n.fraction ++ powerText n.power), by simp [text, hwhole], ?_⟩
  exact n.whole_digits d (hwhole ▸ List.mem_cons_self)

theorem stops_of_begins_eq_false (h : NumberLiteral.begins u = false) : Stops Char.isDigit u := by
  intro c hc
  obtain ⟨cs, rfl⟩ : ∃ cs, u = c :: cs := List.head?_eq_some_iff.1 hc
  by_cases hdot : c = '.'
  · rw [hdot]
    rfl
  · rw [← NumberLiteral.begins_cons hdot cs, h]

theorem begins_power_append (hu : Ends u) (p : Option Int) :
    NumberLiteral.begins (powerText p ++ u) = false := by
  cases p with
  | none => exact hu.digit
  | some e => rfl

theorem signOf_inj {e f : Int} (h : signOf e = signOf f) : e < 0 ↔ f < 0 := by
  unfold signOf at h
  by_cases he : e < 0 <;> by_cases hf : f < 0 <;> simp [he, hf] at h ⊢

theorem powerText_append_inj {p q : Option Int} (hu : Ends u) (hv : Ends v)
    (h : powerText p ++ u = powerText q ++ v) : p = q ∧ u = v := by
  rcases p with _ | e <;> rcases q with _ | f
  · exact ⟨rfl, h⟩
  · obtain rfl : u = 'e' :: _ := h
    cases hu.power 'e' rfl
  · obtain rfl : 'e' :: _ = v := h
    cases hv.power 'e' rfl
  · obtain ⟨hsign, h⟩ := List.cons.inj (List.cons.inj h).2
    obtain ⟨hdigits, huv⟩ := append_inj_of_stops isDigit_of_mem_toDigits isDigit_of_mem_toDigits
      (stops_of_begins_eq_false hu.digit) (stops_of_begins_eq_false hv.digit) h
    have habs := toDigits_injective hdigits
    have hneg := signOf_inj hsign
    exact ⟨congrArg some (by omega), huv⟩

/-- A point stands only before a digit, so it is seen whether there is a fraction. -/
theorem begins_fraction_append {ds : List Char} (hds : ∀ c ∈ ds, c.isDigit = true)
    (hne : ds ≠ []) (u : List Char) : NumberLiteral.begins (fractionText ds ++ u) = true := by
  obtain ⟨d, ds, rfl⟩ := List.exists_cons_of_ne_nil hne
  exact hds d List.mem_cons_self

theorem stops_fraction_append (ds : List Char) (hu : NumberLiteral.begins u = false) :
    Stops Char.isDigit (fractionText ds ++ u) := by
  cases ds with
  | nil => exact stops_of_begins_eq_false hu
  | cons d ds =>
    rintro _ ⟨⟩
    rfl

theorem fractionText_append_inj {ds es : List Char} (hds : ∀ c ∈ ds, c.isDigit = true)
    (hes : ∀ c ∈ es, c.isDigit = true) (hu : NumberLiteral.begins u = false)
    (hv : NumberLiteral.begins v = false) (h : fractionText ds ++ u = fractionText es ++ v) :
    ds = es ∧ u = v := by
  by_cases hd : ds = [] <;> by_cases he : es = []
  · subst hd he
    exact ⟨rfl, h⟩
  · subst hd
    have hbegins := begins_fraction_append hes he v
    rw [← h] at hbegins
    exact absurd hbegins (Bool.eq_false_iff.1 hu)
  · subst he
    have hbegins := begins_fraction_append hds hd u
    rw [h] at hbegins
    exact absurd hbegins (Bool.eq_false_iff.1 hv)
  · rw [fractionText, if_neg hd, fractionText, if_neg he] at h
    exact append_inj_of_stops hds hes (stops_of_begins_eq_false hu) (stops_of_begins_eq_false hv)
      (List.cons.inj h).2

theorem text_append_inj (hu : Ends u) (hv : Ends v) (h : n.text ++ u = k.text ++ v) :
    n = k ∧ u = v := by
  obtain ⟨whole, fraction, power, hne, hwhole, hfraction⟩ := n
  obtain ⟨whole', fraction', power', hne', hwhole', hfraction'⟩ := k
  simp only [text, List.append_assoc] at h
  have hpower := begins_power_append hu power
  have hpower' := begins_power_append hv power'
  obtain ⟨rfl, hbehind⟩ := append_inj_of_stops hwhole hwhole'
    (stops_fraction_append fraction hpower) (stops_fraction_append fraction' hpower') h
  obtain ⟨rfl, hlast⟩ := fractionText_append_inj hfraction hfraction' hpower hpower' hbehind
  obtain ⟨rfl, huv⟩ := powerText_append_inj hu hv hlast
  exact ⟨rfl, huv⟩

end Numeral

end SigilExpr.Decimal
