import SigilExpr.Proofs.Checked.Basic
import SigilExpr.Proofs.Token.Row

/-!
# A lexer by byte offsets

This lexer stands at a byte offset of the source. It computes where a word ends from where it begins
and cuts numbers and names out of the source there; each cut is checked, and so is the number of the
words. It reads what the lexer of characters reads and does not run into a trap.
-/

set_option autoImplicit false

namespace SigilExpr.Checked

open Text

/-- The number literal at byte `i`, and where it ends. -/
def number (source : List Char) (i : Nat) : Except Alarm (Lexeme × Nat) := do
  let rest ← textFrom source i
  if NumberLiteral.beginsHex rest then
    let digits ← textFrom source (i + 2)
    let stop := i + 2 + (digits.takeWhile NumberLiteral.isHexDigit).length
    let raw ← cut source ⟨i + 2, stop⟩
    if raw.isEmpty then raise source i (.malformed .hexWithoutDigits ⟨i, i + 2⟩)
    else .ok (.number (NumberLiteral.hexNumber raw), stop)
  else
    let stop := i + (NumberLiteral.decimalText rest).length
    let raw ← cut source ⟨i, stop⟩
    match Decimal.unsigned? false raw with
    | none => raise source i (.malformed .invalidNumber ⟨i, stop⟩)
    | some x =>
      match ← textFrom source stop with
      | c :: _ =>
        if isNameStart c then
          raise source i (.malformed .nameAfterNumber ⟨i, stop + c.utf8Size⟩)
        else .ok (.number x, stop)
      | [] => .ok (.number x, stop)

/-- The name at byte `i`, and where it ends. -/
def name (source : List Char) (i : Nat) : Except Alarm (Lexeme × Nat) := do
  let rest ← textFrom source i
  let stop := i + byteLength (rest.takeWhile isNameRest)
  let raw ← cut source ⟨i, stop⟩
  .ok (.ofName (String.ofList raw), stop)

/-- Whether a number begins at byte `i`, where `c` stands: a point needs a digit behind it. -/
def beginsNumber (source : List Char) (i : Nat) (c : Char) : Except Alarm Bool :=
  if c = '.' then do
    let rest ← textFrom source (i + 1)
    .ok (rest.head?.any Char.isDigit)
  else .ok c.isDigit

/-- The word at byte `i`, and where it ends. -/
def scan (source : List Char) (i : Nat) : Except Alarm (Lexeme × Nat) := do
  match ← textFrom source i with
  | [] => .ok (.eof, i)
  | c :: rest =>
    if ← beginsNumber source i c then number source i
    else if c = '"' || c = '\'' then
      match Quoted.read c i (i + 1) rest with
      | .ok (s, n) => .ok (.string (String.ofList s), i + byteLength ((c :: rest).take (n + 1)))
      | .error f => raise source i f
    else if isNameStart c then name source i
    else
      match Lexeme.punctuation? (c :: rest) with
      | some (l, n) => .ok (l, i + n)
      | none => raise source i (.malformed (.unexpectedCharacter c) ⟨i, i + c.utf8Size⟩)

/-- The tokens from byte `i` on, if they are found in the given number of rounds. -/
def tokens (source : List Char) : Nat → Nat → Except Alarm (List Token)
  | 0, _ => .error (.trap .endless)
  | rounds + 1, i => do
    match ← textFrom source i with
    | [] => .ok [Token.endAt i]
    | c :: _ =>
      if isBlank c then tokens source rounds (i + c.utf8Size)
      else
        let (l, stop) ← scan source i
        let ts ← tokens source rounds stop
        .ok (⟨l, ⟨i, stop⟩⟩ :: ts)

/-- The second result is the first one; a fault has some position as well. -/
abbrev Same {α β : Type} (value : α → β) : Except Fault α → Except Alarm β → Prop :=
  Follows (fun _ _ => True) fun a b => b = value a

section

variable {source before cs w r : List Char} {i n : Nat} {f : Fault} {l : Lexeme}

theorem quotes_of_within (hsource : source = before ++ cs) (hi : byteLength before = i)
    (h : f.Within i cs) : Quotes source f := by
  obtain ⟨cause, a, mid, b, rfl, -, rfl⟩ := h
  rintro _ _ ⟨⟩ -
  exact ⟨mid, before ++ a, b, by simp [hsource], by rw [byteLength_append, hi]⟩

theorem raise_of_within {α : Type} (hsource : source = before ++ cs) (hi : byteLength before = i)
    (h : f.Within i cs) : raise source i f = (.error (.fault f i) : Except Alarm α) :=
  raise_eq_error (quotes_of_within hsource hi h)

theorem stretch_of_word (hsource : source = before ++ (w ++ r)) (hi : byteLength before = i) :
    Stretch source ⟨i, i + byteLength w⟩ w :=
  ⟨before, r, by rw [hsource, List.append_assoc], by rw [hi]⟩

/-- A word in ASCII takes as many bytes as it has characters. -/
theorem stretch_of_printable (hsource : source = before ++ (w ++ r)) (hi : byteLength before = i)
    (hw : ∀ c ∈ w, Printable c) : Stretch source ⟨i, i + w.length⟩ w :=
  byteLength_of_printable hw ▸ stretch_of_word hsource hi

theorem byteLength_take (hw : ∀ c ∈ w, Printable c) (r : List Char) :
    byteLength ((w ++ r).take w.length) = w.length := by
  rw [List.take_left, byteLength_of_printable hw]

theorem hex_same {m : Char} {ds : List Char} (hsource : source = before ++ '0' :: m :: ds)
    (hi : byteLength before = i) (hm : m = 'x' ∨ m = 'X') :
    Same (fun found => (.number found.1, i + byteLength (('0' :: m :: ds).take found.2)))
      (NumberLiteral.scan i ('0' :: m :: ds)) (number source i) := by
  have hhex : NumberLiteral.beginsHex ('0' :: m :: ds) = true := by
    simpa [NumberLiteral.beginsHex] using hm
  obtain ⟨u, r, rfl, hu, htake⟩ := exists_takeWhile (fun _ => printable_of_isHexDigit) ds
  have htake : (u ++ r).takeWhile NumberLiteral.isHexDigit = u := (htake r (.refl r)).1
  have hu : ∀ c ∈ u, Printable c := fun c hc => printable_of_isHexDigit (hu c hc)
  have hdigits : source = (before ++ ['0', m]) ++ (u ++ r) := by simp [hsource]
  have hlen : byteLength (before ++ ['0', m]) = i + 2 := by
    rw [byteLength_append, hi]
    rcases hm with rfl | rfl <;> rfl
  have hcut := stretch_of_printable hdigits hlen hu
  have hnumber : number source i =
      if u.isEmpty then raise source i (.malformed .hexWithoutDigits ⟨i, i + 2⟩)
      else .ok (.number (NumberLiteral.hexNumber u), i + 2 + u.length) := by
    simp only [number, textFrom_eq_ok hsource hi, bind, Except.bind, hhex, if_true,
      textFrom_eq_ok hdigits hlen, htake, cut_eq_ok hcut]
  have hscan : NumberLiteral.scan i ('0' :: m :: (u ++ r)) =
      if u.isEmpty then .error (.malformed .hexWithoutDigits ⟨i, i + 2⟩)
      else .ok (NumberLiteral.hexNumber u, u.length + 2) := by
    simp only [NumberLiteral.scan, hhex, if_true, List.drop_succ_cons, List.drop_zero, htake]
  rw [hnumber, hscan]
  split
  · next hempty =>
    rw [if_pos hempty] at hscan
    exact ⟨i, raise_of_within hsource hi (NumberLiteral.fault_of_scan rfl hscan), trivial⟩
  · have hm : Printable m := by rcases hm with rfl | rfl <;> exact ⟨by decide, by decide⟩
    have hall : ∀ c ∈ '0' :: m :: u, Printable c := by
      simp only [List.forall_mem_cons]
      exact ⟨⟨by decide, by decide⟩, hm, hu⟩
    have hstop := byteLength_take hall r
    rw [List.cons_append, List.cons_append, List.length_cons, List.length_cons] at hstop
    exact ⟨_, rfl, by simp only [hstop, Nat.add_assoc, Nat.add_comm 2]⟩

theorem number_same (hsource : source = before ++ cs) (hi : byteLength before = i)
    (hbegins : NumberLiteral.begins cs = true) :
    Same (fun found => (.number found.1, i + byteLength (cs.take found.2)))
      (NumberLiteral.scan i cs) (number source i) := by
  by_cases hhex : NumberLiteral.beginsHex cs = true
  · obtain ⟨m, ds, rfl, hm⟩ := NumberLiteral.exists_of_beginsHex hhex
    exact hex_same hsource hi hm
  have hfault : ∀ f, NumberLiteral.scan i cs = .error f →
      raise source i f = (.error (.fault f i) : Except Alarm (Lexeme × Nat)) :=
    fun f h => raise_of_within hsource hi (NumberLiteral.fault_of_scan hbegins h)
  obtain ⟨r, hcs, htext⟩ := NumberLiteral.exists_decimalText cs
  generalize hw : NumberLiteral.decimalText cs = w at hcs htext
  subst hcs
  have hcut := stretch_of_printable hsource hi htext.printable
  have hrest : source = (before ++ w) ++ r := by rw [hsource, List.append_assoc]
  have hlen : byteLength (before ++ w) = i + w.length := by
    rw [byteLength_append, hi, byteLength_of_printable htext.printable]
  unfold NumberLiteral.scan at hfault ⊢
  unfold number
  rw [textFrom_eq_ok hsource hi]
  simp only [bind, Except.bind, if_neg hhex, hw, cut_eq_ok hcut, textFrom_eq_ok hrest hlen,
    List.drop_left] at hfault ⊢
  have hstop := byteLength_take htext.printable r
  cases hx : Decimal.unsigned? false w with
  | none =>
    rw [hx] at hfault
    exact ⟨i, hfault _ rfl, trivial⟩
  | some x =>
    cases r with
    | nil => exact ⟨_, rfl, by simp only [hstop]⟩
    | cons c r =>
      rw [hx] at hfault
      by_cases hc : isNameStart c = true
      · simp only [if_pos hc] at hfault ⊢
        exact ⟨i, hfault _ rfl, trivial⟩
      · simp only [if_neg hc]
        exact ⟨_, rfl, by simp only [hstop]⟩

theorem name_eq_ok {c : Char} {rest : List Char} (hsource : source = before ++ c :: rest)
    (hi : byteLength before = i) (hc : isNameStart c = true) :
    name source i = .ok (.ofName (String.ofList (c :: rest.takeWhile isNameRest)),
      i + byteLength (c :: rest.takeWhile isNameRest)) := by
  have hword : (c :: rest).takeWhile isNameRest = c :: rest.takeWhile isNameRest := by
    rw [List.takeWhile_cons, isNameRest_of_isNameStart hc, if_pos rfl]
  have hsplit : source =
      before ++ (c :: rest.takeWhile isNameRest ++ rest.dropWhile isNameRest) := by
    rw [List.cons_append, List.takeWhile_append_dropWhile, hsource]
  simp only [name, textFrom_eq_ok hsource hi, bind, Except.bind, hword,
    cut_eq_ok (stretch_of_word hsplit hi)]

theorem beginsNumber_eq_ok {c : Char} {rest : List Char} (hsource : source = before ++ c :: rest)
    (hi : byteLength before = i) :
    beginsNumber source i c = .ok (NumberLiteral.begins (c :: rest)) := by
  unfold beginsNumber
  by_cases hc : c = '.'
  · subst hc
    have hrest : source = (before ++ ['.']) ++ rest := by simp [hsource]
    have hlen : byteLength (before ++ ['.']) = i + 1 := by
      rw [byteLength_append, hi]
      rfl
    rw [if_pos rfl, textFrom_eq_ok hrest hlen]
    cases rest <;> rfl
  · rw [if_neg hc]
    unfold NumberLiteral.begins
    split
    · next heq => exact absurd (List.cons.inj heq).1 hc
    · next heq =>
      obtain ⟨rfl, -⟩ := List.cons.inj heq
      rfl
    · next heq => cases heq

theorem scan_same (hsource : source = before ++ cs) (hi : byteLength before = i) (hne : cs ≠ []) :
    Same (fun found => (found.1, i + byteLength (cs.take found.2)))
      (Lexeme.scan i cs) (scan source i) := by
  have hfault : ∀ f, Lexeme.scan i cs = .error f →
      raise source i f = (.error (.fault f i) : Except Alarm (Lexeme × Nat)) :=
    fun f h => raise_of_within hsource hi (Lexeme.fault_of_scan h)
  obtain ⟨c, rest, rfl⟩ := List.exists_cons_of_ne_nil hne
  unfold scan
  rw [textFrom_eq_ok hsource hi]
  simp only [Lexeme.scan, bind, Except.bind, beginsNumber_eq_ok hsource hi] at hfault ⊢
  split
  · next hbegins =>
    have hnumber := number_same hsource hi hbegins
    cases hscan : NumberLiteral.scan i (c :: rest) with
    | ok found =>
      rw [hscan] at hnumber
      exact hnumber
    | error f =>
      rw [hscan] at hnumber
      exact hnumber
  · next hbegins =>
    rw [if_neg hbegins] at hfault
    split
    · next hquote =>
      rw [if_pos hquote] at hfault
      cases hread : Quoted.read c i (i + 1) rest with
      | ok found => exact ⟨_, rfl, rfl⟩
      | error f =>
        rw [hread] at hfault
        exact ⟨i, hfault f rfl, trivial⟩
    · next hquote =>
      rw [if_neg hquote] at hfault
      split
      · next hname =>
        have hlen : (c :: rest).take (c :: rest.takeWhile isNameRest).length =
            c :: rest.takeWhile isNameRest := by
          have hprefix : rest.takeWhile isNameRest <+: rest := List.takeWhile_prefix _
          rw [List.length_cons, List.take_succ_cons, ← List.prefix_iff_eq_take.1 hprefix]
        exact ⟨_, name_eq_ok hsource hi hname, by simp only [hlen]⟩
      · next hname =>
        rw [if_neg hname] at hfault
        cases hpunctuation : Lexeme.punctuation? (c :: rest) with
        | some found =>
          obtain ⟨l, n⟩ := found
          obtain ⟨w, r, heq, rfl, -, hw, -⟩ := Lexeme.exists_of_punctuation? hpunctuation
          exact ⟨_, rfl, by simp only [heq, byteLength_take hw]⟩
        | none =>
          rw [hpunctuation] at hfault
          exact ⟨i, hfault _ rfl, trivial⟩

/-- By induction on the words: each round reads a blank or a word, and so it is not the last one
before the text has ended. -/
theorem tokens_same {cs : List Char} {rounds : Nat} (hsource : source = before ++ cs)
    (hi : byteLength before = i) (hrounds : cs.length < rounds) :
    Same id (Token.ofText 0 i cs) (tokens source rounds i) := by
  induction i, cs using Token.text_induction generalizing before rounds with
  | nil i =>
    obtain ⟨rounds, rfl⟩ : ∃ k, rounds = k + 1 := ⟨rounds - 1, by omega⟩
    rw [tokens, textFrom_eq_ok hsource hi]
    exact ⟨_, rfl, rfl⟩
  | blank i c cs hc ih =>
    obtain ⟨rounds, rfl⟩ : ∃ k, rounds = k + 1 := ⟨rounds - 1, by omega⟩
    rw [tokens, textFrom_eq_ok hsource hi, Token.ofText_blank hc]
    simp only [bind, Except.bind, if_pos hc]
    rw [List.length_cons] at hrounds
    have hrest : source = (before ++ [c]) ++ cs := by simp [hsource]
    exact ih hrest (by simp [hi]) (by omega)
  | fault i cs f hne hblank hscan =>
    obtain ⟨rounds, rfl⟩ : ∃ k, rounds = k + 1 := ⟨rounds - 1, by omega⟩
    have hsame := scan_same hsource hi hne
    rw [hscan] at hsame
    obtain ⟨position, hsame, -⟩ := hsame
    rw [Token.ofText_fault hne hblank hscan, tokens, textFrom_eq_ok hsource hi]
    obtain ⟨c, cs, rfl⟩ := List.exists_cons_of_ne_nil hne
    refine ⟨position, ?_, trivial⟩
    simp only [bind, Except.bind, if_neg (Bool.eq_false_iff.1 (hblank c rfl)), hsame]
  | word i w cs l hw hblank hscan ih =>
    obtain ⟨rounds, rfl⟩ : ∃ k, rounds = k + 1 := ⟨rounds - 1, by omega⟩
    have hsame := scan_same hsource hi (by simp [hw])
    rw [hscan] at hsame
    obtain ⟨_, hsame, rfl⟩ := hsame
    have hlen : w.length + cs.length < rounds + 1 := by rwa [List.length_append] at hrounds
    have hpos := List.length_pos_iff.2 hw
    have hrest : source = (before ++ w) ++ cs := by simp [hsource]
    have hrounds : cs.length < rounds := by omega
    have htail := ih hrest (by simp [hi]) hrounds
    rw [Token.ofText_word hw hblank hscan, tokens, textFrom_eq_ok hsource hi]
    obtain ⟨c, w, rfl⟩ := List.exists_cons_of_ne_nil hw
    simp only [List.take_left] at hsame
    simp only [List.cons_append, bind, Except.bind, if_neg (Bool.eq_false_iff.1 (hblank c rfl))]
      at hsame ⊢
    rw [hsame]
    dsimp only
    generalize Token.ofText 0 (i + byteLength (c :: w)) cs = rest at htail ⊢
    cases rest with
    | ok ts =>
      obtain ⟨_, htail, rfl⟩ := htail
      rw [htail]
      exact ⟨_, rfl, rfl⟩
    | error f =>
      obtain ⟨position, htail, -⟩ := htail
      rw [htail]
      exact ⟨position, rfl, trivial⟩
end

end SigilExpr.Checked
