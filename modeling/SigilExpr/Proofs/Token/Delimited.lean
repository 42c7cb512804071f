import SigilExpr.Proofs.Token.Pieces

/-!
# Words before a parenthesis

A word that stands alone is the same word before a blank, a parenthesis or the end of the text. So
nothing has to be put between the words of an expression whose parts stand in parentheses.

Words of punctuation may NOT be put together in general: two of them may spell a third.
-/

set_option autoImplicit false

namespace SigilExpr

open Text

namespace Text

/-- The text begins with a blank or a parenthesis, if at all. -/
def Delimited (r : List Char) : Prop := ∀ c ∈ r.head?, isBlank c = true ∨ c = '(' ∨ c = ')'

variable {p : Char → Bool} {r w : List Char}

theorem Delimited.stops (h : Delimited r) (hp : ∀ c, p c = true → Printable c)
    (hopen : p '(' = false) (hclose : p ')' = false) : Stops p r := by
  intro c hc
  rcases h c hc with hblank | rfl | rfl
  · exact eq_false_of_isBlank hp hblank
  · exact hopen
  · exact hclose

theorem Delimited.gap {gap : List Char} (h : Delimited r) (hgap : ∀ c ∈ gap, isBlank c = true) :
    Delimited (gap ++ r) := by
  cases gap with
  | nil => exact h
  | cons c gap =>
    rintro _ ⟨⟩
    exact .inl (hgap c List.mem_cons_self)

theorem Stops.append (hw : Stops p w) (hr : Stops p r) : Stops p (w ++ r) := by
  cases w with
  | nil => exact hr
  | cons c w => exact hw

end Text

namespace NumberLiteral

variable {r w : List Char} {x : Binary64} {offset : Nat}

/-- The text is a number literal, no more and no less, for the number. -/
def Denotes (w : List Char) (x : Binary64) : Prop :=
  begins w = true ∧ scan 0 w = .ok (x, w.length)

theorem powerText_append (hr : Delimited r) (hw : powerText w = w) : powerText (w ++ r) = w := by
  have hdigit : Stops Char.isDigit r := hr.stops (fun _ => printable_of_isDigit) rfl rfl
  by_cases hmark : Stops isExponentMark w
  · have hr : Stops isExponentMark r := hr.stops (fun _ => printable_of_isExponentMark) rfl rfl
    rw [powerText_of_stops hmark] at hw
    rw [powerText_of_stops (hmark.append hr), hw]
  · obtain ⟨c, w, rfl, hc⟩ := eq_cons_of_not_stops hmark
    by_cases hsign : Stops isSign w
    · have hr : Stops isSign r := hr.stops (fun _ => printable_of_isSign) rfl rfl
      rw [powerText_plain hc hsign] at hw
      have hall := List.takeWhile_eq_self_iff.1 (List.cons.inj hw).2
      rw [List.cons_append, powerText_plain hc (hsign.append hr), takeWhile_append hall hdigit]
    · obtain ⟨s, ds, rfl, hs⟩ := eq_cons_of_not_stops hsign
      rw [powerText_signed ds hc hs] at hw
      have hall := List.takeWhile_eq_self_iff.1 (List.cons.inj (List.cons.inj hw).2).2
      rw [List.cons_append, List.cons_append, powerText_signed _ hc hs, takeWhile_append hall hdigit]

theorem decimalText_append (hr : Delimited r) (hw : decimalText w = w) :
    decimalText (w ++ r) = w := by
  have hdigit : Stops Char.isDigit r := hr.stops (fun _ => printable_of_isDigit) rfl rfl
  obtain ⟨u, v, rfl, hu, htake⟩ := exists_takeWhile (p := Char.isDigit)
    (fun _ => printable_of_isDigit) w
  obtain ⟨htake, hdrop⟩ := htake v (.refl v)
  have hv : Stops Char.isDigit v := hdrop ▸ stops_dropWhile Char.isDigit (u ++ v)
  have hvr : Stops Char.isDigit (v ++ r) := hv.append hdigit
  rw [List.append_assoc]
  by_cases hpoint : Stops (· == '.') v
  · have hr' : Stops (· == '.') r := by
      intro c hc
      rcases hr c hc with hblank | rfl | rfl
      · rw [beq_eq_false_iff_ne]
        rintro rfl
        cases hblank
      · rfl
      · rfl
    rw [decimalText_whole htake hdrop hpoint] at hw
    rw [decimalText_whole (takeWhile_append hu hvr) (dropWhile_append hu hvr) (hpoint.append hr'),
      powerText_append hr (List.append_cancel_left hw)]
  · obtain ⟨c, v, rfl, hc⟩ := eq_cons_of_not_stops hpoint
    obtain rfl : c = '.' := by simpa using hc
    obtain ⟨a, b, rfl, ha, htake'⟩ := exists_takeWhile (p := Char.isDigit)
      (fun _ => printable_of_isDigit) v
    obtain ⟨htake', hdrop'⟩ := htake' b (.refl b)
    have hb : Stops Char.isDigit b := hdrop' ▸ stops_dropWhile Char.isDigit (a ++ b)
    have hbr : Stops Char.isDigit (b ++ r) := hb.append hdigit
    rw [decimalText_point htake hdrop htake' hdrop'] at hw
    have hpower : powerText b = b :=
      List.append_cancel_left (List.cons.inj (List.append_cancel_left hw)).2
    rw [List.cons_append, List.append_assoc] at hvr ⊢
    rw [decimalText_point (takeWhile_append hu hvr) (dropWhile_append hu hvr)
      (takeWhile_append ha hbr) (dropWhile_append ha hbr), powerText_append hr hpower]

theorem beginsHex_append_of_delimited (hr : Delimited r) (hw : beginsHex w = false)
    (hne : w ≠ []) : beginsHex (w ++ r) = false := by
  by_contra hhex
  have hhex : beginsHex (w ++ r) = true := by simpa using hhex
  obtain ⟨x, ds, heq, hx⟩ := exists_of_beginsHex hhex
  rcases w with _ | ⟨c, _ | ⟨d, w⟩⟩
  · exact hne rfl
  · obtain ⟨-, rfl⟩ := List.cons.inj heq
    rcases hr x rfl with hblank | rfl | rfl
    · rcases hx with rfl | rfl <;> cases hblank
    · rcases hx with hx | hx <;> cases hx
    · rcases hx with hx | hx <;> cases hx
  · obtain ⟨rfl, htail⟩ := List.cons.inj heq
    obtain ⟨rfl, -⟩ := List.cons.inj htail
    rcases hx with rfl | rfl <;> cases hw

theorem scan_hex {m : Char} (hm : m = 'x' ∨ m = 'X') (hne : w ≠ [])
    (hw : ∀ c ∈ w, isHexDigit c = true) (hr : Stops isHexDigit r) (offset : Nat) :
    scan offset ('0' :: m :: (w ++ r)) = .ok (hexNumber w, w.length + 2) := by
  have hhex : beginsHex ('0' :: m :: (w ++ r)) = true := by simpa [beginsHex] using hm
  have hne : w.isEmpty = false := List.isEmpty_eq_false_iff.2 hne
  simp [scan, hhex, takeWhile_append hw hr, hne]

theorem scan_decimal (hhex : beginsHex (w ++ r) = false) (htext : decimalText (w ++ r) = w)
    (hx : Decimal.unsigned? false w = some x) (hr : Stops isNameStart r) (offset : Nat) :
    scan offset (w ++ r) = .ok (x, w.length) := by
  simp only [scan, hhex, Bool.false_eq_true, if_false, htext, hx, List.drop_left]
  cases r with
  | nil => rfl
  | cons c r => simp [hr c rfl]

/-- A number literal is hexadecimal or decimal. -/
theorem Denotes.cases (h : Denotes w x) :
    (∃ m ds, w = '0' :: m :: ds ∧ (m = 'x' ∨ m = 'X') ∧ ds ≠ [] ∧
      (∀ c ∈ ds, isHexDigit c = true) ∧ hexNumber ds = x) ∨
    (beginsHex w = false ∧ decimalText w = w ∧ Decimal.unsigned? false w = some x) := by
  obtain ⟨hbegins, h⟩ := h
  unfold scan at h
  split at h
  · next hhex =>
    obtain ⟨m, ds, rfl, hm⟩ := exists_of_beginsHex hhex
    simp only [List.drop_succ_cons, List.drop_zero, List.length_cons] at h
    split at h
    · cases h
    · next hne =>
      obtain ⟨hx, hlength⟩ := Prod.mk.inj (Except.ok.inj h)
      have htake : ds.takeWhile isHexDigit = ds :=
        (List.takeWhile_prefix _).eq_of_length (by omega)
      rw [htake] at hx hne
      refine .inl ⟨m, ds, rfl, hm, ?_, List.takeWhile_eq_self_iff.1 htake, hx⟩
      simpa using hne
  · next hhex =>
    obtain ⟨r, heq, -⟩ := exists_decimalText w
    dsimp only at h
    split at h
    · cases h
    · next y hy =>
      have hscan : y = x ∧ (decimalText w).length = w.length := by
        split at h
        · split at h
          · cases h
          · exact Prod.mk.inj (Except.ok.inj h)
        · exact Prod.mk.inj (Except.ok.inj h)
      obtain ⟨rfl, hlength⟩ := hscan
      have hprefix : decimalText w <+: w := ⟨r, heq.symm⟩
      have htext : decimalText w = w := hprefix.eq_of_length hlength
      rw [htext] at hy
      exact .inr ⟨Bool.eq_false_iff.2 hhex, htext, hy⟩

theorem Denotes.ne_nil (h : Denotes w x) : w ≠ [] := by
  rintro rfl
  cases h.1

theorem stops_of_begins (h : begins w = true) : Stops isBlank w := by
  rintro c hc
  obtain ⟨cs, rfl⟩ : ∃ cs, w = c :: cs := List.head?_eq_some_iff.1 hc
  by_cases hdot : c = '.'
  · rw [hdot]
    rfl
  · rw [begins_cons hdot] at h
    rw [Bool.eq_false_iff]
    exact fun hblank => not_printable_of_isBlank hblank (printable_of_isDigit h)

theorem Denotes.stops (h : Denotes w x) : Stops isBlank w := stops_of_begins h.1

theorem Denotes.scan_append (h : Denotes w x) (hr : Delimited r) (offset : Nat) :
    begins (w ++ r) = true ∧ scan offset (w ++ r) = .ok (x, w.length) := by
  rcases h.cases with ⟨m, ds, rfl, hm, hne, hds, rfl⟩ | ⟨hhex, htext, hx⟩
  · exact ⟨rfl, scan_hex hm hne hds (hr.stops (fun _ => printable_of_isHexDigit) rfl rfl) offset⟩
  · have hstart : Stops isNameStart r :=
      hr.stops (fun _ hc => printable_of_isNameRest (isNameRest_of_isNameStart hc)) rfl rfl
    refine ⟨begins_append hx ((List.append_nil w).symm ▸ h.1) r, ?_⟩
    exact scan_decimal (beginsHex_append_of_delimited hr hhex h.ne_nil) (decimalText_append hr htext) hx
      hstart offset

end NumberLiteral

namespace Quoted

/-- What stands between double quotes for a character. -/
def escape (c : Char) : List Char :=
  if c = '"' ∨ c = '\\' then ['\\', c]
  else if c = '\n' then ['\\', 'n']
  else [c]

/-- The literal for a string, between double quotes. -/
def escaped (s : List Char) : List Char := '"' :: (s.flatMap escape ++ ['"'])

theorem text_ofChar (hquote : '"' ∉ ['n', 't', 'r', '0', 'u', '\n']) (c : Char) :
    (Piece.ofChar hquote c).text = escape c := by
  unfold Piece.ofChar escape
  split
  · next h => rw [if_neg (by simp [h.1, h.2.1]), if_neg h.2.2, Piece.text]
  · next h =>
    split
    · next hbreak =>
      subst hbreak
      rfl
    · next hbreak => rw [if_pos (eq_quote_or_backslash h hbreak), Piece.text]

theorem read_escaped (s : List Char) (start offset : Nat) (rest : List Char) :
    read '"' start offset (s.flatMap escape ++ '"' :: rest) =
      .ok (s, (s.flatMap escape).length + 1) := by
  have hletters : '"' ∉ ['n', 't', 'r', '0', 'u', '\n'] := by decide
  have htext : textOf (s.map (Piece.ofChar hletters)) = s.flatMap escape := by
    simp [textOf, List.flatMap_map, text_ofChar]
  have hread := read_pieces (by decide) (s.map (Piece.ofChar hletters)) start offset rest
  rwa [htext, meaningOf_map_ofChar] at hread

end Quoted

namespace Lexeme

variable {w r : List Char} {l : Lexeme} {offset : Nat}

theorem scan_of_begins {cs : List Char} (h : NumberLiteral.begins cs = true) (offset : Nat) :
    scan offset cs = (NumberLiteral.scan offset cs).map fun found => (.number found.1, found.2) := by
  cases cs with
  | nil => cases h
  | cons c cs =>
    rw [scan, if_pos h]
    cases NumberLiteral.scan offset (c :: cs) <;> rfl

theorem scan_number {x : Binary64} (h : NumberLiteral.Denotes w x) (hr : Delimited r)
    (offset : Nat) : scan offset (w ++ r) = .ok (.number x, w.length) := by
  obtain ⟨hbegins, hscan⟩ := h.scan_append hr offset
  rw [scan_of_begins hbegins, hscan]
  rfl

theorem scan_escaped (s : List Char) (offset : Nat) (rest : List Char) :
    scan offset (Quoted.escaped s ++ rest) =
      .ok (.string (String.ofList s), (Quoted.escaped s).length) := by
  have htext : Quoted.escaped s ++ rest = '"' :: (s.flatMap Quoted.escape ++ '"' :: rest) := by
    simp [Quoted.escaped]
  rw [htext]
  exact (scan_quote (.inl rfl) offset _).2
    ⟨s, _, Quoted.read_escaped s offset (offset + 1) rest, rfl, by simp [Quoted.escaped]⟩

/-- A word that stands alone, and is the same word before a parenthesis. -/
theorem scan_delimited (hw : w ≠ []) (h : ∀ offset, scan offset w = .ok (l, w.length))
    (hopen : ∀ offset rest, scan offset (w ++ '(' :: rest) = .ok (l, w.length))
    (hclose : ∀ offset rest, scan offset (w ++ ')' :: rest) = .ok (l, w.length))
    (hr : Delimited r) (offset : Nat) : scan offset (w ++ r) = .ok (l, w.length) := by
  cases r with
  | nil => rw [List.append_nil, h]
  | cons c r =>
    rcases hr c rfl with hblank | rfl | rfl
    · refine scan_append_of_blank hw (h 0) ?_ offset
      rintro _ ⟨⟩
      exact hblank
    · exact hopen offset r
    · exact hclose offset r

end Lexeme

end SigilExpr
