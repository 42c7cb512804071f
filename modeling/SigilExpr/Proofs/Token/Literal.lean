import Mathlib.Data.List.TakeWhile
import SigilExpr.Proofs.Text.Stretch
import SigilExpr.Token.Quoted

/-!
# What a literal takes of a text

A literal is taken from the front of a text, and what stands behind it matters only in that it ends
the literal there. So it is taken alike where less of the text follows it, or where a blank does. A
literal that is at fault is so over a stretch of the text, and that stretch is not empty.
-/

set_option autoImplicit false

namespace SigilExpr

open Text

theorem printable_of_isDigit {c : Char} (h : c.isDigit = true) : Printable c := by
  simp only [Char.isDigit, Bool.and_eq_true, decide_eq_true_eq, ge_iff_le,
    UInt32.le_iff_toNat_le] at h
  have hlow : 48 ≤ c.toNat := h.1
  have hhigh : c.toNat ≤ 57 := h.2
  exact ⟨by omega, by omega⟩

theorem printable_of_isAlpha {c : Char} (h : c.isAlpha = true) : Printable c := by
  have h : (decide ('A'.val ≤ c.val ∧ c.val ≤ 'Z'.val) ||
      decide ('a'.val ≤ c.val) && decide (c.val ≤ 'z'.val)) = true := h
  simp only [Bool.or_eq_true, Bool.and_eq_true, decide_eq_true_eq, UInt32.le_iff_toNat_le] at h
  rcases h with ⟨hlow, hhigh⟩ | ⟨hlow, hhigh⟩
  · have hlow : 65 ≤ c.toNat := hlow
    have hhigh : c.toNat ≤ 90 := hhigh
    exact ⟨by omega, by omega⟩
  · have hlow : 97 ≤ c.toNat := hlow
    have hhigh : c.toNat ≤ 122 := hhigh
    exact ⟨by omega, by omega⟩

theorem printable_of_isNameRest {c : Char} (h : isNameRest c = true) : Printable c := by
  simp only [isNameRest, Char.isAlphanum, Bool.or_eq_true, beq_iff_eq] at h
  rcases h with ((h | h) | rfl) | rfl
  · exact printable_of_isAlpha h
  · exact printable_of_isDigit h
  · exact ⟨by decide, by decide⟩
  · exact ⟨by decide, by decide⟩

theorem isNameRest_of_isNameStart {c : Char} (h : isNameStart c = true) : isNameRest c = true := by
  simp only [isNameStart, Bool.or_eq_true] at h
  simp only [isNameRest, Char.isAlphanum, Bool.or_eq_true]
  rcases h with (h | h) | h
  · exact .inl (.inl (.inl h))
  · exact .inl (.inr h)
  · exact .inr h

theorem printable_of_isHexDigit {c : Char} (h : NumberLiteral.isHexDigit c = true) :
    Printable c := by
  simp only [NumberLiteral.isHexDigit, Bool.or_eq_true, Bool.and_eq_true, decide_eq_true_eq,
    Char.le_def, UInt32.le_iff_toNat_le] at h
  rcases h with (h | ⟨hlow, hhigh⟩) | ⟨hlow, hhigh⟩
  · exact printable_of_isDigit h
  · have hlow : 97 ≤ c.toNat := hlow
    have hhigh : c.toNat ≤ 102 := hhigh
    exact ⟨by omega, by omega⟩
  · have hlow : 65 ≤ c.toNat := hlow
    have hhigh : c.toNat ≤ 70 := hhigh
    exact ⟨by omega, by omega⟩

namespace Text

/-- A text may stand for another one behind a word: it begins alike or with a blank, if at all. -/
def Resumes (r r' : List Char) : Prop := ∀ c ∈ r'.head?, c ∈ r.head? ∨ isBlank c = true

/-- No character at the front of the text has the property. -/
def Stops (p : Char → Bool) (r : List Char) : Prop := ∀ c ∈ r.head?, p c = false

variable {p : Char → Bool} {r r' u : List Char}

theorem Resumes.refl (r : List Char) : Resumes r r := fun _ h => .inl h

theorem Resumes.append (h : Resumes r r') (u : List Char) : Resumes (u ++ r) (u ++ r') := by
  cases u with
  | nil => exact h
  | cons c u => exact fun d hd => .inl hd

theorem Stops.resumes (h : Stops p r) (hp : ∀ c, p c = true → Printable c)
    (hr : Resumes r r') : Stops p r' := by
  intro c hc
  rcases hr c hc with hc | hc
  · exact h c hc
  · exact eq_false_of_isBlank hp hc

theorem stops_cons {c : Char} (h : p c = false) (r : List Char) : Stops p (c :: r) := by
  rintro _ ⟨⟩
  exact h

theorem stops_dropWhile (p : Char → Bool) (cs : List Char) : Stops p (cs.dropWhile p) := by
  intro c hc
  have h := List.head?_dropWhile_not p cs
  rw [Option.mem_def.1 hc] at h
  exact h

theorem takeWhile_append (hu : ∀ c ∈ u, p c = true) (hr : Stops p r) :
    (u ++ r).takeWhile p = u := by
  rw [List.takeWhile_append_of_pos hu]
  cases r with
  | nil => simp
  | cons c r => simp [hr c rfl]

theorem dropWhile_append (hu : ∀ c ∈ u, p c = true) (hr : Stops p r) :
    (u ++ r).dropWhile p = r := by
  rw [List.dropWhile_append_of_pos hu]
  cases r with
  | nil => rfl
  | cons c r => simp [hr c rfl]

/-- Where a stretch of characters of one kind ends is seen from the text. -/
theorem append_inj_of_stops {w : List Char} (hu : ∀ c ∈ u, p c = true) (hw : ∀ c ∈ w, p c = true)
    (hr : Stops p r) (hr' : Stops p r') (h : u ++ r = w ++ r') : u = w ∧ r = r' := by
  have heq : u = w := by rw [← takeWhile_append hu hr, h, takeWhile_append hw hr']
  subst heq
  exact ⟨rfl, List.append_cancel_left h⟩

theorem exists_takeWhile {p : Char → Bool} (hp : ∀ c, p c = true → Printable c)
    (cs : List Char) :
    ∃ u r, cs = u ++ r ∧ (∀ c ∈ u, p c = true) ∧
      ∀ r', Resumes r r' → (u ++ r').takeWhile p = u ∧ (u ++ r').dropWhile p = r' := by
  have hall : ∀ c ∈ cs.takeWhile p, p c = true := fun c hc => List.mem_takeWhile_imp hc
  refine ⟨cs.takeWhile p, cs.dropWhile p, List.takeWhile_append_dropWhile.symm, hall, ?_⟩
  intro r' hr
  have hstop : Stops p r' :=
    (stops_dropWhile p cs).resumes hp hr
  exact ⟨takeWhile_append hall hstop, dropWhile_append hall hstop⟩

end Text

/-- A fault in a text that stands at byte `offset`: it points at a stretch that is not empty. -/
def Fault.Within (f : Fault) (offset : Nat) (cs : List Char) : Prop :=
  ∃ cause a mid b, cs = a ++ mid ++ b ∧ mid ≠ [] ∧
    f = .malformed cause ⟨offset + byteLength a, offset + byteLength a + byteLength mid⟩

namespace NumberLiteral

/-- What `f` takes of the front of a text is `w`, wherever a text like `r` stands behind it. -/
structure Takes (f : List Char → List Char) (w r : List Char) : Prop where
  printable : ∀ c ∈ w, Printable c
  stable : ∀ r', Resumes r r' → f (w ++ r') = w

def isExponentMark (c : Char) : Bool := c == 'e' || c == 'E'

def isSign (c : Char) : Bool := c == '+' || c == '-'

theorem printable_of_isExponentMark {c : Char} (h : isExponentMark c = true) : Printable c := by
  simp only [isExponentMark, Bool.or_eq_true, beq_iff_eq] at h
  rcases h with rfl | rfl <;> exact ⟨by decide, by decide⟩

theorem printable_of_isSign {c : Char} (h : isSign c = true) : Printable c := by
  simp only [isSign, Bool.or_eq_true, beq_iff_eq] at h
  rcases h with rfl | rfl <;> exact ⟨by decide, by decide⟩

theorem powerText_of_stops {r : List Char} (h : Stops isExponentMark r) : powerText r = [] := by
  cases r with
  | nil => rfl
  | cons c r =>
    have hc : ¬ (c = 'e' ∨ c = 'E') := by simpa [isExponentMark] using h c rfl
    simp [powerText, hc]

theorem powerText_plain {c : Char} {r : List Char} (hc : isExponentMark c = true)
    (h : Stops isSign r) : powerText (c :: r) = c :: r.takeWhile Char.isDigit := by
  have hc : c = 'e' ∨ c = 'E' := by simpa [isExponentMark] using hc
  cases r with
  | nil => simp [powerText, hc]
  | cons s ds =>
    have hs : ¬ (s = '+' ∨ s = '-') := by simpa [isSign] using h s rfl
    simp [powerText, hc, hs]

theorem powerText_signed {c s : Char} (ds : List Char) (hc : isExponentMark c = true)
    (hs : isSign s = true) : powerText (c :: s :: ds) = c :: s :: ds.takeWhile Char.isDigit := by
  have hc : c = 'e' ∨ c = 'E' := by simpa [isExponentMark] using hc
  have hs : s = '+' ∨ s = '-' := by simpa [isSign] using hs
  simp [powerText, hc, hs]

theorem eq_cons_of_not_stops {p : Char → Bool} {cs : List Char} (h : ¬ Stops p cs) :
    ∃ c r, cs = c :: r ∧ p c = true := by
  cases cs with
  | nil => exact absurd (fun _ h => by cases h) h
  | cons c r =>
    refine ⟨c, r, rfl, ?_⟩
    by_contra hc
    refine h ?_
    rintro _ ⟨⟩
    exact Bool.eq_false_iff.2 hc

theorem exists_powerText (cs : List Char) :
    ∃ r, cs = powerText cs ++ r ∧ Takes powerText (powerText cs) r := by
  have hdigit := exists_takeWhile (p := Char.isDigit) fun c => printable_of_isDigit
  by_cases hmark : Stops isExponentMark cs
  · rw [powerText_of_stops hmark]
    refine ⟨cs, rfl, by simp, ?_⟩
    intro r' hr
    exact powerText_of_stops (hmark.resumes (fun _ => printable_of_isExponentMark) hr)
  obtain ⟨c, cs, rfl, hc⟩ := eq_cons_of_not_stops hmark
  have hcp := printable_of_isExponentMark hc
  by_cases hsign : Stops isSign cs
  · obtain ⟨u, r, rfl, hu, htake⟩ := hdigit cs
    have hstop : ∀ r', Resumes r r' → powerText (c :: (u ++ r')) = c :: u := by
      intro r' hr
      have hsign' : Stops isSign (u ++ r') :=
        hsign.resumes (fun _ => printable_of_isSign) (hr.append u)
      rw [powerText_plain hc hsign', (htake r' hr).1]
    rw [hstop r (.refl r)]
    exact ⟨r, rfl, List.forall_mem_cons.2 ⟨hcp, fun d hd => printable_of_isDigit (hu d hd)⟩, hstop⟩
  · obtain ⟨s, ds, rfl, hs⟩ := eq_cons_of_not_stops hsign
    obtain ⟨u, r, rfl, hu, htake⟩ := hdigit ds
    have hstop : ∀ r', Resumes r r' → powerText (c :: s :: (u ++ r')) = c :: s :: u := by
      intro r' hr
      rw [powerText_signed _ hc hs, (htake r' hr).1]
    rw [hstop r (.refl r)]
    refine ⟨r, rfl, ?_, hstop⟩
    simp only [List.forall_mem_cons]
    exact ⟨hcp, printable_of_isSign hs, fun d hd => printable_of_isDigit (hu d hd)⟩

theorem decimalText_whole {u r : List Char} (htake : (u ++ r).takeWhile Char.isDigit = u)
    (hdrop : (u ++ r).dropWhile Char.isDigit = r) (hr : Stops (· == '.') r) :
    decimalText (u ++ r) = u ++ powerText r := by
  unfold decimalText
  rw [htake, hdrop]
  split
  · simpa using hr '.' rfl
  · rfl

theorem decimalText_point {u v r : List Char}
    (htake : (u ++ '.' :: (v ++ r)).takeWhile Char.isDigit = u)
    (hdrop : (u ++ '.' :: (v ++ r)).dropWhile Char.isDigit = '.' :: (v ++ r))
    (htake' : (v ++ r).takeWhile Char.isDigit = v) (hdrop' : (v ++ r).dropWhile Char.isDigit = r) :
    decimalText (u ++ '.' :: (v ++ r)) = u ++ '.' :: (v ++ powerText r) := by
  unfold decimalText
  rw [htake, hdrop]
  simp [htake', hdrop']

theorem exists_decimalText (cs : List Char) :
    ∃ r, cs = decimalText cs ++ r ∧ Takes decimalText (decimalText cs) r := by
  have hdigit := exists_takeWhile (p := Char.isDigit) fun c => printable_of_isDigit
  obtain ⟨u, rest, rfl, hu, htake⟩ := hdigit cs
  have hu : ∀ c ∈ u, Printable c := fun c hc => printable_of_isDigit (hu c hc)
  by_cases hpoint : Stops (· == '.') rest
  · obtain ⟨r, hrest, hpower⟩ := exists_powerText rest
    have hstop : ∀ r', Resumes r r' →
        decimalText (u ++ (powerText rest ++ r')) = u ++ powerText rest := by
      intro r' hr
      have hresumes : Resumes rest (powerText rest ++ r') := by
        have h := hr.append (powerText rest)
        rwa [← hrest] at h
      have hpoint' : Stops (· == '.') (powerText rest ++ r') := by
        refine hpoint.resumes ?_ hresumes
        intro d hd
        obtain rfl : d = '.' := by simpa using hd
        exact ⟨by decide, by decide⟩
      obtain ⟨h₁, h₂⟩ := htake _ hresumes
      rw [decimalText_whole h₁ h₂ hpoint', hpower.stable r' hr]
    have hself : decimalText (u ++ rest) = u ++ powerText rest := by
      have h := hstop r (.refl r)
      rwa [← hrest] at h
    rw [hself]
    refine ⟨r, by rw [List.append_assoc, ← hrest],
      List.forall_mem_append.2 ⟨hu, hpower.printable⟩, ?_⟩
    intro r' hr
    rw [List.append_assoc, hstop r' hr]
  · obtain ⟨c, rest, rfl, hc⟩ := eq_cons_of_not_stops hpoint
    obtain rfl : c = '.' := by simpa using hc
    obtain ⟨v, rest', rfl, hv, htake'⟩ := hdigit rest
    have hv : ∀ c ∈ v, Printable c := fun c hc => printable_of_isDigit (hv c hc)
    obtain ⟨r, hrest, hpower⟩ := exists_powerText rest'
    have hstop : ∀ r', Resumes r r' →
        decimalText (u ++ '.' :: (v ++ (powerText rest' ++ r'))) =
          u ++ '.' :: (v ++ powerText rest') := by
      intro r' hr
      have hresumes : Resumes rest' (powerText rest' ++ r') := by
        have h := hr.append (powerText rest')
        rwa [← hrest] at h
      have hpoint' : Resumes ('.' :: (v ++ rest')) ('.' :: (v ++ (powerText rest' ++ r'))) :=
        fun c hc => .inl hc
      obtain ⟨h₁, h₂⟩ := htake _ hpoint'
      obtain ⟨h₃, h₄⟩ := htake' _ hresumes
      rw [decimalText_point h₁ h₂ h₃ h₄, hpower.stable r' hr]
    have hself : decimalText (u ++ '.' :: (v ++ rest')) = u ++ '.' :: (v ++ powerText rest') := by
      have h := hstop r (.refl r)
      rwa [← hrest] at h
    rw [hself]
    refine ⟨r, by simp [← hrest], ?_, ?_⟩
    · simp only [List.forall_mem_append, List.forall_mem_cons]
      exact ⟨hu, ⟨by decide, by decide⟩, hv, hpower.printable⟩
    · intro r' hr
      have h := hstop r' hr
      simpa using h

theorem exists_of_beginsHex {cs : List Char} (h : beginsHex cs = true) :
    ∃ x ds, cs = '0' :: x :: ds ∧ (x = 'x' ∨ x = 'X') := by
  unfold beginsHex at h
  split at h
  · next x ds => exact ⟨x, ds, rfl, by simpa using h⟩
  · cases h

/-- A literal that is not hexadecimal does not become so by what follows it. -/
theorem beginsHex_append {w r r' : List Char} (h : beginsHex (w ++ r) = false) (hw : w ≠ [])
    (hr : Resumes r r') : beginsHex (w ++ r') = false := by
  by_contra hhex
  have hhex : beginsHex (w ++ r') = true := by simpa using hhex
  obtain ⟨x, ds, heq, hx⟩ := exists_of_beginsHex hhex
  have hprintable : Printable x := by rcases hx with rfl | rfl <;> exact ⟨by decide, by decide⟩
  cases w with
  | nil => exact hw rfl
  | cons c w =>
    rw [List.cons_append, List.cons.injEq] at heq
    obtain ⟨rfl, heq⟩ := heq
    cases w with
    | cons d w =>
      obtain ⟨rfl, -⟩ := List.cons.inj heq
      rcases hx with rfl | rfl <;> cases h
    | nil =>
      obtain rfl : r' = x :: ds := heq
      rcases hr x rfl with hhead | hblank
      · obtain ⟨rs, rfl⟩ : ∃ rs, r = x :: rs := by
          cases r with
          | nil => cases hhead
          | cons d rs =>
            obtain rfl := Option.some.inj hhead
            exact ⟨rs, rfl⟩
        rcases hx with rfl | rfl <;> cases h
      · exact not_printable_of_isBlank hblank hprintable

theorem begins_cons {c : Char} (hc : c ≠ '.') (cs : List Char) : begins (c :: cs) = c.isDigit := by
  unfold begins
  split
  · next heq => exact absurd (List.cons.inj heq).1 hc
  · next heq => rw [(List.cons.inj heq).1]
  · next heq => cases heq

theorem begins_point_eq_false_iff {cs : List Char} :
    begins ('.' :: cs) = false ↔ Stops Char.isDigit cs := by
  cases cs with
  | nil => exact iff_of_true rfl fun _ h => by cases h
  | cons d cs => exact ⟨fun h _ hd => by cases hd; exact h, fun h => h d rfl⟩

/-- What does not begin like a number literal does not do so by what follows it. -/
theorem begins_eq_false_append {w r r' : List Char} (h : begins (w ++ r) = false) (hw : w ≠ [])
    (hr : Resumes r r') : begins (w ++ r') = false := by
  obtain ⟨c, w, rfl⟩ := List.exists_cons_of_ne_nil hw
  by_cases hc : c = '.'
  · subst hc
    rw [List.cons_append, begins_point_eq_false_iff] at h ⊢
    exact h.resumes (fun _ => printable_of_isDigit) (hr.append w)
  · rw [List.cons_append, begins_cons hc] at h ⊢
    exact h

/-- A text that begins with a whole numeral begins like a number literal. -/
theorem begins_append {w r : List Char} {x : Binary64} (hx : Decimal.unsigned? false w = some x)
    (h : begins (w ++ r) = true) (r' : List Char) : begins (w ++ r') = true := by
  cases w with
  | nil => cases hx
  | cons c w =>
    by_cases hc : c = '.'
    · subst hc
      cases w with
      | nil => cases hx
      | cons d w => exact h
    · rw [List.cons_append, begins_cons hc] at h ⊢
      exact h

/-- The literal stands at the front of the text, and what follows it ends it. -/
theorem exists_of_scan {offset n : Nat} {cs : List Char} {x : Binary64}
    (hbegins : begins cs = true) (h : scan offset cs = .ok (x, n)) :
    ∃ w r, cs = w ++ r ∧ w.length = n ∧ w ≠ [] ∧ ∀ offset' r', Resumes r r' →
      begins (w ++ r') = true ∧ scan offset' (w ++ r') = .ok (x, n) := by
  unfold scan at h
  split at h
  · next hhex =>
    obtain ⟨m, ds, rfl, hm⟩ := exists_of_beginsHex hhex
    obtain ⟨u, r, rfl, hu, htake⟩ := exists_takeWhile (fun _ => printable_of_isHexDigit) ds
    simp only [List.drop_succ_cons, List.drop_zero, (htake r (.refl r)).1] at h
    split at h
    · cases h
    · next hne =>
      cases h
      refine ⟨'0' :: m :: u, r, rfl, rfl, by simp, ?_⟩
      intro offset' r' hr
      have hhex' : beginsHex ('0' :: m :: (u ++ r')) = true := by simpa [beginsHex] using hm
      refine ⟨rfl, ?_⟩
      simp only [scan, List.cons_append, hhex', if_true, List.drop_succ_cons, List.drop_zero,
        (htake r' hr).1, if_neg hne]
  · next hhex =>
    obtain ⟨r, heq, htext⟩ := exists_decimalText cs
    generalize decimalText cs = w at h heq htext
    subst heq
    simp only [List.drop_left] at h
    split at h
    · cases h
    · next y hx =>
      have hw : w ≠ [] := by
        rintro rfl
        cases hx
      have hstop : Stops isNameStart r ∧ y = x ∧ w.length = n := by
        split at h
        · next c cs =>
          split at h
          · cases h
          · next hc =>
            cases h
            refine ⟨?_, rfl, rfl⟩
            rintro _ ⟨⟩
            exact Bool.eq_false_iff.2 hc
        · cases h
          exact ⟨(fun _ hc => by cases hc), rfl, rfl⟩
      obtain ⟨hstop, rfl, rfl⟩ := hstop
      refine ⟨w, r, rfl, rfl, hw, ?_⟩
      intro offset' r' hr
      have hhex' : beginsHex (w ++ r') = false := beginsHex_append (Bool.eq_false_iff.2 hhex) hw hr
      have hstop' : Stops isNameStart r' :=
        hstop.resumes (fun c hc => printable_of_isNameRest (isNameRest_of_isNameStart hc)) hr
      refine ⟨begins_append hx hbegins r', ?_⟩
      simp only [scan, hhex', Bool.false_eq_true, if_false, htext.stable r' hr, hx, List.drop_left]
      cases r' with
      | nil => rfl
      | cons c r' => simp [hstop' c rfl]

theorem decimalText_ne_nil {cs : List Char} (h : begins cs = true) : decimalText cs ≠ [] := by
  cases cs with
  | nil => cases h
  | cons c cs =>
    by_cases hc : c = '.'
    · subst hc
      simp [decimalText]
    · rw [begins_cons hc] at h
      unfold decimalText
      split <;> simp [h]

theorem fault_of_scan {offset : Nat} {cs : List Char} {f : Fault} (hbegins : begins cs = true)
    (h : scan offset cs = .error f) : f.Within offset cs := by
  unfold scan at h
  split at h
  · next hhex =>
    obtain ⟨m, ds, rfl, hm⟩ := exists_of_beginsHex hhex
    dsimp only at h
    split at h
    · cases h
      refine ⟨.hexWithoutDigits, [], ['0', m], ds, rfl, by simp, ?_⟩
      rcases hm with rfl | rfl <;> rfl
    · cases h
  · obtain ⟨r, heq, htext⟩ := exists_decimalText cs
    have hne := decimalText_ne_nil hbegins
    generalize decimalText cs = w at h heq htext hne
    subst heq
    simp only [List.drop_left] at h
    have hlength := byteLength_of_printable htext.printable
    split at h
    · cases h
      exact ⟨.invalidNumber, [], w, r, rfl, hne, by simp [hlength]⟩
    · split at h
      · next c r _ =>
        split at h
        · cases h
          exact ⟨.nameAfterNumber, [], w ++ [c], r, by simp, by simp,
            by simp [hlength, Nat.add_assoc]⟩
        · cases h
      · cases h

end NumberLiteral

namespace Quoted

theorem exists_of_piece {meaning m : List Char} {n k : Nat}
    {x : Except Fault (List Char × Nat)} (h : piece meaning k x = .ok (m, n)) :
    ∃ rest l, x = .ok (rest, l) ∧ m = meaning ++ rest ∧ n = k + l := by
  rcases x with f | ⟨rest, l⟩
  · cases h
  · cases h
    exact ⟨rest, l, rfl, rfl, rfl⟩

theorem piece_eq_error_iff {meaning : List Char} {k : Nat} {x : Except Fault (List Char × Nat)}
    {f : Fault} : piece meaning k x = .error f ↔ x = .error f := by
  rcases x with f | ⟨rest, l⟩ <;> simp [piece]

theorem read_quote (quote : Char) (start offset : Nat) (cs : List Char) :
    read quote start offset (quote :: cs) = .ok ([], 1) := by
  unfold read
  exact if_pos rfl

theorem read_plain {quote c : Char} (hq : c ≠ quote) (hslash : c ≠ '\\') (hn : c ≠ '\n')
    (start offset : Nat) (cs : List Char) :
    read quote start offset (c :: cs) =
      piece [c] 1 (read quote start (offset + c.utf8Size) cs) := by
  rw [read.eq_def quote start offset (c :: cs)]
  simp only [if_neg hq, if_neg hslash, if_neg hn]

/-- The literal stands at the front of the text, and nothing that follows it matters. -/
theorem exists_of_read {quote : Char} {start offset n : Nat} {cs m : List Char}
    (h : read quote start offset cs = .ok (m, n)) :
    ∃ w r, cs = w ++ r ∧ w.length = n ∧
      ∀ start' offset' r', read quote start' offset' (w ++ r') = .ok (m, n) := by
  fun_induction read quote start offset cs generalizing m n with
  | case1 offset | case3 offset hq | case4 offset x y z v rest hcode hq
  | case6 offset x y z v rest code hcode hscalar hq | case7 offset ds hds hq
  | case10 offset cs hq hslash => cases h
  | case2 offset cs =>
    cases h
    exact ⟨[quote], cs, rfl, rfl, fun _ _ _ => read_quote _ _ _ _⟩
  | case5 offset x y z v rest code hcode hscalar hq ih =>
    obtain ⟨m', l, hread, rfl, rfl⟩ := exists_of_piece h
    obtain ⟨w, r, rfl, rfl, hw⟩ := ih hread
    refine ⟨'\\' :: 'u' :: x :: y :: z :: v :: w, r, rfl, by simp; omega, ?_⟩
    intro start' offset' r'
    simp [read, hq, hcode, hscalar, hw, piece]
  | case8 offset rest hq ih =>
    obtain ⟨m', l, hread, rfl, rfl⟩ := exists_of_piece h
    obtain ⟨w, r, rfl, rfl, hw⟩ := ih hread
    refine ⟨'\\' :: '\n' :: w, r, rfl, by simp; omega, ?_⟩
    intro start' offset' r'
    simp [read, hq, hw, piece]
  | case9 offset e rest hu hn hq ih =>
    obtain ⟨m', l, hread, rfl, rfl⟩ := exists_of_piece h
    obtain ⟨w, r, rfl, rfl, hw⟩ := ih hread
    refine ⟨'\\' :: e :: w, r, rfl, by simp; omega, ?_⟩
    intro start' offset' r'
    simp [read, hq, hw, piece]
  | case11 offset c cs hq hslash hn ih =>
    obtain ⟨m', l, hread, rfl, rfl⟩ := exists_of_piece h
    obtain ⟨w, r, rfl, rfl, hw⟩ := ih hread
    refine ⟨c :: w, r, rfl, by simp; omega, ?_⟩
    intro start' offset' r'
    rw [List.cons_append, read_plain hq hslash hn, hw]
    rfl

theorem byteLength_of_code? {x y z v : Char} {code : Nat} (h : code? x y z v = some code) :
    byteLength [x, y, z, v] = 4 := by
  unfold code? at h
  split at h
  · next hall =>
    exact byteLength_of_printable fun c hc => printable_of_isHexDigit (List.all_eq_true.1 hall c hc)
  · cases h

/-- The fault is within the literal, whose text up to the offset is `before`. -/
theorem fault_of_read {quote : Char} {start offset : Nat} {cs : List Char} {f : Fault}
    (h : read quote start offset cs = .error f) (before : List Char) (hne : before ≠ [])
    (hoffset : start + byteLength before = offset) : f.Within start (before ++ cs) := by
  fun_induction read quote start offset cs generalizing before with
  | case1 offset =>
    cases h
    subst hoffset
    exact ⟨_, [], before, [], by simp, hne, rfl⟩
  | case2 offset cs => cases h
  | case3 offset hq =>
    cases h
    subst hoffset
    exact ⟨_, before, ['\\'], [], by simp, by simp, rfl⟩
  | case4 offset x y z v rest hcode hq | case6 offset x y z v rest code hcode hscalar hq
  | case7 offset ds hds hq =>
    cases h
    subst hoffset
    exact ⟨_, before, ['\\', 'u'], _, by rw [List.append_assoc]; rfl, by simp, rfl⟩
  | case5 offset x y z v rest code hcode hscalar hq ih =>
    have hdigits := byteLength_of_code? hcode
    have hlength : byteLength ['\\', 'u', x, y, z, v] = 6 := by
      rw [byteLength_cons, byteLength_cons, hdigits]
      rfl
    have hwithin := ih (piece_eq_error_iff.1 h) (before ++ ['\\', 'u', x, y, z, v])
      (by simp) (by rw [byteLength_append, hlength]; omega)
    simpa using hwithin
  | case8 offset rest hq ih =>
    have hwithin := ih (piece_eq_error_iff.1 h) (before ++ ['\\', '\n'])
      (by simp) (by subst hoffset; simp [Nat.add_assoc]; rfl)
    simpa using hwithin
  | case9 offset e rest hu hn hq ih =>
    have hwithin := ih (piece_eq_error_iff.1 h) (before ++ ['\\', e])
      (by simp) (by subst hoffset; simp [Nat.add_assoc]; rfl)
    simpa using hwithin
  | case10 offset cs hq hslash =>
    cases h
    subst hoffset
    exact ⟨_, [], before, '\n' :: cs, by simp, hne, rfl⟩
  | case11 offset c cs hq hslash hn ih =>
    have hwithin := ih (piece_eq_error_iff.1 h) (before ++ [c])
      (by simp) (by subst hoffset; simp [Nat.add_assoc])
    simpa using hwithin

end Quoted

end SigilExpr
