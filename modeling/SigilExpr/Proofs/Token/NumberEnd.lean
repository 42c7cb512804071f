import SigilExpr.Proofs.Token.Delimited
import SigilExpr.Proofs.Token.Grouped

/-!
# Where a number ends

A decimal literal that runs into a name is at fault, so behind a number comes no name without a
blank. A hexadecimal literal ends at the first character that is no digit of it, whatever that is:
`0x1g` is the number `0x1` and the name `g`.
-/

set_option autoImplicit false

namespace SigilExpr

open Text

/-- Whether the lexeme is spelled as a name. -/
def Lexeme.isNamed : Lexeme → Bool
  | .ident _ | .bool _ | .null => true
  | _ => false

theorem isNameStart_of_isNameRest {c : Char} (h : isNameRest c = true)
    (hdigit : c.isDigit = false) : isNameStart c = true := by
  simpa [isNameRest, isNameStart, Char.isAlphanum, hdigit] using h

namespace NumberLiteral

variable {offset : Nat} {w r cs : List Char} {c : Char} {x : Binary64}

/-- Behind a power of ten there is no digit, if there was none before. -/
theorem stops_powerText (h : Stops Char.isDigit cs) :
    ∃ r, cs = powerText cs ++ r ∧ Stops Char.isDigit r := by
  by_cases hmark : Stops isExponentMark cs
  · exact ⟨cs, by rw [powerText_of_stops hmark]; rfl, h⟩
  obtain ⟨m, cs, rfl, hm⟩ := eq_cons_of_not_stops hmark
  by_cases hsign : Stops isSign cs
  · refine ⟨cs.dropWhile Char.isDigit, ?_, stops_dropWhile _ _⟩
    rw [powerText_plain hm hsign, List.cons_append, List.takeWhile_append_dropWhile]
  · obtain ⟨s, ds, rfl, hs⟩ := eq_cons_of_not_stops hsign
    refine ⟨ds.dropWhile Char.isDigit, ?_, stops_dropWhile _ _⟩
    rw [powerText_signed ds hm hs, List.cons_append, List.cons_append,
      List.takeWhile_append_dropWhile]

/-- Behind a decimal literal there is no digit. -/
theorem stops_decimalText (cs : List Char) :
    ∃ r, cs = decimalText cs ++ r ∧ Stops Char.isDigit r := by
  obtain ⟨u, rest, rfl, -, htake⟩ := exists_takeWhile (p := Char.isDigit)
    (fun _ => printable_of_isDigit) cs
  obtain ⟨htake, hdrop⟩ := htake rest (.refl rest)
  have hrest : Stops Char.isDigit rest := hdrop ▸ stops_dropWhile Char.isDigit (u ++ rest)
  by_cases hpoint : Stops (· == '.') rest
  · obtain ⟨r, heq, hr⟩ := stops_powerText hrest
    refine ⟨r, ?_, hr⟩
    rw [decimalText_whole htake hdrop hpoint, List.append_assoc, ← heq]
  · obtain ⟨c, rest, rfl, hc⟩ := eq_cons_of_not_stops hpoint
    obtain rfl : c = '.' := by simpa using hc
    obtain ⟨v, rest, rfl, -, htake'⟩ := exists_takeWhile (p := Char.isDigit)
      (fun _ => printable_of_isDigit) rest
    obtain ⟨htake', hdrop'⟩ := htake' rest (.refl rest)
    have hrest' : Stops Char.isDigit rest := hdrop' ▸ stops_dropWhile Char.isDigit (v ++ rest)
    obtain ⟨r, heq, hr⟩ := stops_powerText hrest'
    refine ⟨r, ?_, hr⟩
    rw [decimalText_point htake hdrop htake' hdrop', List.append_assoc, List.cons_append,
      List.append_assoc, ← heq]

/-- The fault of a decimal literal that a name character follows. -/
def runOnFault (offset : Nat) (w : List Char) (c : Char) : Fault :=
  match Decimal.unsigned? false w with
  | none => .malformed .invalidNumber ⟨offset, offset + w.length⟩
  | some _ => .malformed .nameAfterNumber ⟨offset, offset + w.length + c.utf8Size⟩

theorem scan_of_runs_on (hhex : beginsHex (w ++ c :: r) = false)
    (hw : decimalText (w ++ c :: r) = w) (hc : isNameRest c = true) (offset : Nat) :
    scan offset (w ++ c :: r) = .error (runOnFault offset w c) := by
  obtain ⟨r', heq, hstop⟩ := stops_decimalText (w ++ c :: r)
  rw [hw] at heq
  obtain rfl := List.append_cancel_left heq
  have hstart : isNameStart c = true := isNameStart_of_isNameRest hc (hstop c rfl)
  simp only [scan, hhex, Bool.false_eq_true, if_false, hw, List.drop_left, runOnFault]
  cases Decimal.unsigned? false w with
  | none => rfl
  | some x => simp [hstart]

/-- The text is a hexadecimal literal. -/
def IsHex (w : List Char) : Prop :=
  ∃ m ds, w = '0' :: m :: ds ∧ (m = 'x' ∨ m = 'X') ∧ ds ≠ [] ∧ ∀ c ∈ ds, isHexDigit c = true

/-- A number literal is hexadecimal, or no name begins behind it. -/
theorem isHex_or_stops_of_scan (h : scan offset (w ++ r) = .ok (x, w.length)) :
    IsHex w ∨ Stops isNameStart r := by
  unfold scan at h
  split at h
  · next hhex =>
    obtain ⟨m, ds, heq, hm⟩ := exists_of_beginsHex hhex
    simp only [heq, List.drop_succ_cons, List.drop_zero] at h
    split at h
    · cases h
    · next hne =>
      obtain ⟨-, hlength⟩ := Prod.mk.inj (Except.ok.inj h)
      have hsplit : w ++ r = '0' :: m :: ds.takeWhile isHexDigit ++ ds.dropWhile isHexDigit := by
        rw [heq, List.cons_append, List.cons_append, List.takeWhile_append_dropWhile]
      obtain ⟨hw, -⟩ := List.append_inj hsplit hlength.symm
      exact .inl ⟨m, _, hw, hm, by simpa using hne, fun c hc => List.mem_takeWhile_imp hc⟩
  · dsimp only at h
    split at h
    · cases h
    · split at h
      · next c cs hdrop =>
        split at h
        · cases h
        · next hc =>
          obtain ⟨-, hlength⟩ := Prod.mk.inj (Except.ok.inj h)
          rw [hlength, List.drop_left] at hdrop
          exact .inr (hdrop ▸ stops_cons (Bool.eq_false_iff.2 hc) cs)
      · next hdrop =>
        obtain ⟨-, hlength⟩ := Prod.mk.inj (Except.ok.inj h)
        rw [hlength, List.drop_left] at hdrop
        exact .inr (by simp [hdrop, Stops])

end NumberLiteral

namespace Lexeme

variable {offset n : Nat} {w r cs : List Char} {l : Lexeme}

theorem isNamed_ofName (name : String) : (ofName name).isNamed = true := by
  unfold ofName
  split <;> rfl

theorem isWord_of_isNamed (h : l.isNamed = true) : l.isWord = true := by
  cases l <;> first | rfl | cases h

/-- A lexeme that is spelled as a name begins like one. -/
theorem exists_of_isNamed (hw : w ≠ []) (hl : l.isNamed = true)
    (h : scan offset (w ++ r) = .ok (l, w.length)) : ∃ c v, w = c :: v ∧ isNameStart c = true := by
  rcases cases_of_scan (by simp [hw]) h with ⟨x, -, rfl⟩ | ⟨s, rfl⟩ | ⟨v, r', heq, hlength, hv, -⟩ |
    ⟨entry, hentry, -, -, rfl⟩
  · cases hl
  · cases hl
  · obtain ⟨rfl, -⟩ := List.append_inj heq hlength.symm
    obtain ⟨c, v, rfl⟩ := List.exists_cons_of_ne_nil hw
    exact ⟨c, v, rfl, (isName_cons_iff.1 hv).1⟩
  · have hword := isWord_of_mem_punctuation hentry
    rw [isWord_of_isNamed hl] at hword
    cases hword

/-- A number comes from a number literal. -/
theorem scan_of_number {x : Binary64} (hne : cs ≠ []) (h : scan offset cs = .ok (.number x, n)) :
    NumberLiteral.scan offset cs = .ok (x, n) := by
  rcases cases_of_scan hne h with ⟨y, hscan, hl⟩ | ⟨s, hl⟩ | ⟨w, r, -, -, -, hl⟩ |
    ⟨entry, hentry, -, -, hl⟩
  · cases hl
    exact hscan
  · cases hl
  · have hnamed := isNamed_ofName (String.ofList w)
    rw [← hl] at hnamed
    cases hnamed
  · have hword := isWord_of_mem_punctuation hentry
    rw [← hl] at hword
    cases hword

end Lexeme

namespace Token

variable {offset : Nat} {cs rest xs : List Char} {ts : List Token} {t u : Token}

/-- A number that stands directly before a name is hexadecimal. -/
theorem Row.isHex_of_isNamed {x : Binary64} (h : Row offset cs rest (t :: u :: ts))
    (ht : t.lexeme = .number x) (hu : u.lexeme.isNamed = true) (htu : t.span.stop = u.span.start) :
    ∃ gap w ds, cs = gap ++ (w ++ ds) ∧ t.span.start = offset + byteLength gap ∧
      t.span.stop = t.span.start + byteLength w ∧ NumberLiteral.IsHex w := by
  obtain ⟨gap, w, ds, rfl, -, hw, hscan, hstart, hstop, hrow⟩ := h.exists_word
  refine ⟨gap, w, ds, rfl, hstart, hstop, ?_⟩
  obtain ⟨gap', v, ds', rfl, -, hv, hscan', hstart', -, -⟩ := hrow.exists_word
  obtain rfl : gap' = [] := by
    by_contra hne
    have hpos := byteLength_pos hne
    omega
  obtain ⟨c, v, rfl, hc⟩ := Lexeme.exists_of_isNamed hv hu hscan'
  rw [ht] at hscan
  rcases NumberLiteral.isHex_or_stops_of_scan (Lexeme.scan_of_number (by simp [hw]) hscan) with
    hhex | hstops
  · exact hhex
  · have hfalse := hstops c rfl
    rw [hc] at hfalse
    cases hfalse

theorem Row.isHex_textIn {source : List Char} {before after : List Token} {x : Binary64}
    (h : Row 0 source [] (before ++ t :: u :: after)) (ht : t.lexeme = .number x)
    (hu : u.lexeme.isNamed = true) (htu : t.span.stop = u.span.start) :
    NumberLiteral.IsHex (t.textIn source) := by
  obtain ⟨xs, ys, rfl, -, hys, -⟩ := h.split
  obtain ⟨gap, w, ds, rfl, hstart, hstop, hhex⟩ := hys.isHex_of_isNamed ht hu htu
  have htext : t.textIn (xs ++ (gap ++ (w ++ ds))) = w := by
    have hslice := slice_append (xs ++ gap) w ds
    rw [byteLength_append, ← Nat.zero_add (byteLength xs), ← hstart, ← hstop] at hslice
    simpa [textIn] using hslice
  rwa [htext]

/-- A decimal literal that a name character follows is at fault. -/
theorem ofSource_of_runs_on {w r : List Char} {c : Char} (hrow : Row 0 xs (w ++ c :: r) ts)
    (hbegins : NumberLiteral.begins (w ++ c :: r) = true)
    (hhex : NumberLiteral.beginsHex (w ++ c :: r) = false)
    (hw : NumberLiteral.decimalText (w ++ c :: r) = w) (hc : isNameRest c = true) :
    ofSource (xs ++ (w ++ c :: r)) = .error (NumberLiteral.runOnFault (byteLength xs) w c) := by
  have hscan : Lexeme.scan (0 + byteLength xs) (w ++ c :: r) =
      .error (NumberLiteral.runOnFault (byteLength xs) w c) := by
    rw [Lexeme.scan_of_begins hbegins, NumberLiteral.scan_of_runs_on hhex hw hc, Nat.zero_add]
    rfl
  have hblank : Stops isBlank (w ++ c :: r) := NumberLiteral.stops_of_begins hbegins
  rw [ofSource, hrow.ofText_append, ofText_fault (by simp) hblank hscan]
  rfl

/-- A hexadecimal literal ends where a name begins that is not spelled as digits of it. -/
theorem ofSource_of_hex_name {m : Char} {ds v r : List Char} {tokens : List Token}
    (hrow : Row 0 xs ('0' :: m :: (ds ++ (v ++ r))) ts) (hm : m = 'x' ∨ m = 'X') (hne : ds ≠ [])
    (hds : ∀ c ∈ ds, NumberLiteral.isHexDigit c = true) (hv : isName v = true)
    (hstop : Stops NumberLiteral.isHexDigit v) (hr : Stops isNameRest r)
    (h : ofSource (xs ++ '0' :: m :: (ds ++ (v ++ r))) = .ok tokens) :
    ∃ start middle stop after, tokens = ts ++
      ⟨.number (NumberLiteral.hexNumber ds), ⟨start, middle⟩⟩ ::
        ⟨.ofName (String.ofList v), ⟨middle, stop⟩⟩ :: after := by
  obtain ⟨c, v, rfl⟩ : ∃ c v', v = c :: v' := by
    cases v with
    | nil => cases hv
    | cons c v => exact ⟨c, v, rfl⟩
  have hdigits : Stops NumberLiteral.isHexDigit (c :: v ++ r) := stops_cons (hstop c rfl) _
  have hnumber (offset : Nat) : Lexeme.scan offset ('0' :: m :: ds ++ (c :: v ++ r)) =
      .ok (.number (NumberLiteral.hexNumber ds), ('0' :: m :: ds).length) := by
    rw [Lexeme.scan_of_begins rfl, List.cons_append, List.cons_append,
      NumberLiteral.scan_hex hm hne hds hdigits]
    rfl
  have hname (offset : Nat) := Lexeme.scan_name hv hr offset
  rw [ofSource, hrow.ofText_append, ← List.cons_append, ← List.cons_append,
    ofText_word (by simp) (stops_cons rfl _) (hnumber _),
    ofText_word (by simp) (stops_of_isName hv) (hname _)] at h
  generalize ofText 0 _ r = tail at h
  cases tail with
  | error f => cases h
  | ok after =>
    obtain rfl := Except.ok.inj h
    exact ⟨_, _, _, after, rfl⟩

/-- A number stands directly before a name only if it is hexadecimal: a decimal literal that runs
into a name character is at fault, and a hexadecimal one ends there. -/
theorem decimal_numbers_are_delimited (source : List Char) :
    (∀ tokens before t u after x, ofSource source = .ok tokens →
      tokens = before ++ t :: u :: after → t.lexeme = .number x → u.lexeme.isNamed = true →
      t.span.stop = u.span.start → NumberLiteral.IsHex (t.textIn source)) ∧
    (∀ xs w c r ts, source = xs ++ (w ++ c :: r) → Row 0 xs (w ++ c :: r) ts →
      NumberLiteral.begins (w ++ c :: r) = true → NumberLiteral.beginsHex (w ++ c :: r) = false →
      NumberLiteral.decimalText (w ++ c :: r) = w → isNameRest c = true →
      ofSource source = .error (NumberLiteral.runOnFault (byteLength xs) w c)) ∧
    ∀ xs m ds v r ts tokens, source = xs ++ '0' :: m :: (ds ++ (v ++ r)) →
      Row 0 xs ('0' :: m :: (ds ++ (v ++ r))) ts → (m = 'x' ∨ m = 'X') → ds ≠ [] →
      (∀ c ∈ ds, NumberLiteral.isHexDigit c = true) → isName v = true →
      Stops NumberLiteral.isHexDigit v → Stops isNameRest r → ofSource source = .ok tokens →
      ∃ start middle stop after, tokens = ts ++
        ⟨.number (NumberLiteral.hexNumber ds), ⟨start, middle⟩⟩ ::
          ⟨.ofName (String.ofList v), ⟨middle, stop⟩⟩ :: after := by
  refine ⟨?_, ?_, ?_⟩
  · intro tokens before t u after x h heq ht hu htu
    obtain ⟨ts, rfl, hrow⟩ := ofSource_eq_ok_iff.1 h
    -- The end token is no name, so both tokens are among those before it.
    rcases List.eq_nil_or_concat' after with rfl | ⟨after, last, rfl⟩
    · obtain ⟨-, hlast⟩ := List.append_inj' (heq.trans (List.append_cons before t [u])) rfl
      obtain rfl := List.singleton_inj.1 hlast
      cases hu
    · have hsnoc : ts ++ [endAt (byteLength source)] = before ++ t :: u :: after ++ [last] := by
        simpa using heq
      obtain ⟨rfl, -⟩ := List.append_inj' hsnoc rfl
      exact hrow.isHex_textIn ht hu htu
  · rintro xs w c r ts rfl hrow hbegins hhex hw hc
    exact ofSource_of_runs_on hrow hbegins hhex hw hc
  · rintro xs m ds v r ts tokens rfl hrow hm hne hds hv hstop hr h
    exact ofSource_of_hex_name hrow hm hne hds hv hstop hr h

/-- A power of ten that runs into a name, and a hexadecimal number before the name behind it. -/
theorem decimal_numbers_are_delimited_sample :
    ofSource " 1.5e3x".toList = .error (.malformed .nameAfterNumber ⟨1, 7⟩) ∧
    ∃ t u e : Token, ofSource "0xFgo".toList = .ok [t, u, e] ∧
      t.textIn "0xFgo".toList = "0xF".toList ∧ NumberLiteral.IsHex "0xF".toList ∧
      ∃ start middle stop after, [t, u, e] =
        ⟨.number (.ofNat 15), ⟨start, middle⟩⟩ :: ⟨.ident "go", ⟨middle, stop⟩⟩ :: after := by
  obtain ⟨-, hfault, -⟩ := decimal_numbers_are_delimited " 1.5e3x".toList
  have hdecimal := hfault [' '] "1.5e3".toList 'x' [] [] rfl (.blank rfl .nil) rfl rfl rfl rfl
  obtain ⟨hhex, -, hends⟩ := decimal_numbers_are_delimited "0xFgo".toList
  let t : Token := ⟨.number (.ofNat 15), ⟨0, 3⟩⟩
  let u : Token := ⟨.ident "go", ⟨3, 5⟩⟩
  let e : Token := ⟨.eof, ⟨5, 5⟩⟩
  have h : ofSource "0xFgo".toList = .ok [t, u, e] := rfl
  refine ⟨hdecimal, t, u, e, h, rfl, hhex _ [] t u [e] _ h rfl rfl rfl rfl, ?_⟩
  exact hends [] 'x' ['F'] "go".toList [] [] _ rfl .nil (.inl rfl) (by simp)
    (List.forall_mem_singleton.2 rfl) rfl (stops_cons rfl _) (by simp [Stops]) h

/-- A hexadecimal number stands directly before a name. -/
theorem hexadecimal_number_before_name :
    ∃ t u e : Token, ofSource "0x1g".toList = .ok [t, u, e] ∧
      t.lexeme = .number (.ofNat 1) ∧ u.lexeme = .ident "g" ∧ t.span.stop = u.span.start :=
  ⟨⟨.number (.ofNat 1), ⟨0, 3⟩⟩, ⟨.ident "g", ⟨3, 4⟩⟩, ⟨.eof, ⟨4, 4⟩⟩, rfl, rfl, rfl, rfl⟩

end Token

end SigilExpr
