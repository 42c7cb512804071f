import SigilExpr.Proofs.Token.Row

/-!
# Words that are written down

A name, a text between quotes, a point before a name and a bracket are each a word wherever they
stand. What follows matters only to a name, which must end there.
-/

set_option autoImplicit false

namespace SigilExpr

open Text

theorem isDigit_of_isNameStart {c : Char} (h : isNameStart c = true) : c.isDigit = false := by
  rw [Bool.eq_false_iff]
  intro hdigit
  simp only [Char.isDigit, Bool.and_eq_true, decide_eq_true_eq, ge_iff_le,
    UInt32.le_iff_toNat_le] at hdigit
  have hlow : 48 ≤ c.toNat := hdigit.1
  have hhigh : c.toNat ≤ 57 := hdigit.2
  simp only [isNameStart, Bool.or_eq_true, beq_iff_eq] at h
  rcases h with (h | rfl) | rfl
  · have h : (decide ('A'.val ≤ c.val ∧ c.val ≤ 'Z'.val) ||
        decide ('a'.val ≤ c.val) && decide (c.val ≤ 'z'.val)) = true := h
    simp only [Bool.or_eq_true, Bool.and_eq_true, decide_eq_true_eq, UInt32.le_iff_toNat_le] at h
    rcases h with ⟨hupper, -⟩ | ⟨hupper, -⟩
    · have hupper : 65 ≤ c.toNat := hupper
      omega
    · have hupper : 97 ≤ c.toNat := hupper
      omega
  · exact absurd hhigh (by decide)
  · exact absurd hlow (by decide)

theorem isName_cons_iff {c : Char} {cs : List Char} :
    isName (c :: cs) = true ↔ isNameStart c = true ∧ ∀ d ∈ cs, isNameRest d = true := by
  simp [isName]

theorem isNameRest_of_isName {w : List Char} (h : isName w = true) :
    ∀ c ∈ w, isNameRest c = true := by
  cases w with
  | nil => cases h
  | cons c cs =>
    obtain ⟨hc, hcs⟩ := isName_cons_iff.1 h
    exact List.forall_mem_cons.2 ⟨isNameRest_of_isNameStart hc, hcs⟩

theorem stops_of_isName {w : List Char} (h : isName w = true) : Stops isBlank w := by
  intro c hc
  have hrest := isNameRest_of_isName h c (List.mem_of_head? hc)
  rw [Bool.eq_false_iff]
  exact fun hblank => not_printable_of_isBlank hblank (printable_of_isNameRest hrest)

theorem Lexeme.scan_name {w rest : List Char} (hw : isName w = true) (hrest : Stops isNameRest rest)
    (offset : Nat) :
    scan offset (w ++ rest) = .ok (.ofName (String.ofList w), w.length) := by
  cases w with
  | nil => cases hw
  | cons c cs =>
    obtain ⟨hc, hcs⟩ := isName_cons_iff.1 hw
    have hdot : c ≠ '.' := by
      rintro rfl
      cases hc
    have hquote : ¬ (c = '"' ∨ c = '\'') := by
      rintro (rfl | rfl) <;> cases hc
    have hbegins : NumberLiteral.begins (c :: (cs ++ rest)) = false := by
      rw [NumberLiteral.begins_cons hdot, isDigit_of_isNameStart hc]
    simp [scan, hbegins, hquote, hc, takeWhile_append hcs hrest]

theorem Quoted.read_text {quote : Char} {w : List Char}
    (hw : ∀ c ∈ w, c ≠ quote ∧ c ≠ '\\' ∧ c ≠ '\n') (start offset : Nat) (rest : List Char) :
    read quote start offset (w ++ quote :: rest) = .ok (w, w.length + 1) := by
  induction w generalizing offset with
  | nil => exact read_quote quote start offset rest
  | cons c w ih =>
    obtain ⟨⟨hq, hslash, hn⟩, hw⟩ := List.forall_mem_cons.1 hw
    rw [List.cons_append, read_plain hq hslash hn, ih hw, piece, List.length_cons]
    simp [Nat.add_comm 1]

/-- A literal is what is read behind its quote. -/
theorem Lexeme.scan_quote {quote : Char} (hquote : quote = '"' ∨ quote = '\'') (offset : Nat)
    (cs : List Char) {l : Lexeme} {n : Nat} :
    scan offset (quote :: cs) = .ok (l, n) ↔
      ∃ m k, Quoted.read quote offset (offset + 1) cs = .ok (m, k) ∧
        l = .string (String.ofList m) ∧ n = k + 1 := by
  have hbegins : NumberLiteral.begins (quote :: cs) = false := by
    rcases hquote with rfl | rfl <;> rfl
  have hquote : (decide (quote = '"') || decide (quote = '\'')) = true := by simpa using hquote
  simp only [scan, hbegins, Bool.false_eq_true, if_false, if_pos hquote]
  cases Quoted.read quote offset (offset + 1) cs with
  | error f => simp
  | ok found =>
    obtain ⟨m, k⟩ := found
    constructor
    · rintro ⟨⟩
      exact ⟨m, k, rfl, rfl, rfl⟩
    · rintro ⟨_, _, ⟨⟩, rfl, rfl⟩
      rfl

theorem Lexeme.scan_quoted {quote : Char} (hquote : quote = '"' ∨ quote = '\'') {w : List Char}
    (hw : ∀ c ∈ w, c ≠ quote ∧ c ≠ '\\' ∧ c ≠ '\n') (offset : Nat) (rest : List Char) :
    scan offset (quote :: (w ++ quote :: rest)) =
      .ok (.string (String.ofList w), w.length + 2) :=
  (scan_quote hquote offset _).2 ⟨w, _, Quoted.read_text hw offset (offset + 1) rest, rfl, rfl⟩

theorem Lexeme.scan_dot {c : Char} (hc : isNameStart c = true) (offset : Nat) (rest : List Char) :
    scan offset ('.' :: c :: rest) = .ok (.dot, 1) := by
  have hdot : c ≠ '.' := by
    rintro rfl
    cases hc
  have hbegins : NumberLiteral.begins ('.' :: c :: rest) = false := isDigit_of_isNameStart hc
  have hpunctuation : punctuation? ('.' :: c :: rest) = some (.dot, 1) := by
    simp [punctuation?, punctuation, hdot.symm]
    rfl
  have hname : isNameStart '.' = false := rfl
  simp [scan, hbegins, hpunctuation, hname]

theorem Lexeme.scan_lbracket (offset : Nat) (rest : List Char) :
    scan offset ('[' :: rest) = .ok (.lbracket, 1) := rfl

theorem Lexeme.scan_rbracket (offset : Nat) (rest : List Char) :
    scan offset (']' :: rest) = .ok (.rbracket, 1) := rfl

namespace Token.Row

variable {offset : Nat} {w cs rest : List Char} {ts : List Token}

theorem name (hw : isName w = true) (hstop : Stops isNameRest (cs ++ rest))
    (h : Row (offset + byteLength w) cs rest ts) :
    Row offset (w ++ cs) rest
      (⟨.ofName (String.ofList w), ⟨offset, offset + byteLength w⟩⟩ :: ts) := by
  have hne : w ≠ [] := by
    rintro rfl
    cases hw
  exact .word hne (stops_of_isName hw) (Lexeme.scan_name hw hstop offset) h

theorem quoted {quote : Char} (hquote : quote = '"' ∨ quote = '\'')
    (hw : ∀ c ∈ w, c ≠ quote ∧ c ≠ '\\' ∧ c ≠ '\n')
    (h : Row (offset + byteLength (quote :: (w ++ [quote]))) cs rest ts) :
    Row offset (quote :: (w ++ [quote]) ++ cs) rest
      (⟨.string (String.ofList w), ⟨offset, offset + byteLength (quote :: (w ++ [quote]))⟩⟩ :: ts) := by
  have hblank : Stops isBlank (quote :: (w ++ [quote])) := by
    rintro _ ⟨⟩
    rcases hquote with rfl | rfl <;> rfl
  have hscan := Lexeme.scan_quoted hquote hw offset (cs ++ rest)
  exact .word (by simp) hblank (by simpa using hscan) h

end Token.Row

end SigilExpr
