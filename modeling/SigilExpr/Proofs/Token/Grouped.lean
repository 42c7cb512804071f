import SigilExpr.Proofs.Syntax.Phrase
import SigilExpr.Proofs.Token.Content
import SigilExpr.Proofs.Token.Spacing

/-!
# Names in parentheses

A name may stand in any number of parentheses. Its text is then that of the name in as many
parentheses, with blanks between them, and it begins with the first of them.
-/

set_option autoImplicit false

namespace SigilExpr

open Text

namespace Text

/-- A text in any number of parentheses, with blanks within each of them. -/
inductive Parenthesized (inner : List Char) : List Char → Prop where
  | bare : Parenthesized inner inner
  | pair {gap cs gap' : List Char} : Blank gap → Blank gap' → Parenthesized inner cs →
      Parenthesized inner ('(' :: (gap ++ (cs ++ (gap' ++ [')']))))

theorem Blank.append {cs ds : List Char} (hcs : Blank cs) (hds : Blank ds) : Blank (cs ++ ds) :=
  List.forall_mem_append.2 ⟨hcs, hds⟩

end Text

namespace Lexeme

/-- Whether the lexeme is spelled otherwise than as punctuation. -/
def isWord : Lexeme → Bool
  | .number _ | .string _ | .bool _ | .null | .ident _ => true
  | _ => false

theorem isWord_ofName (name : String) : (ofName name).isWord = true := by
  unfold ofName
  split <;> rfl

theorem isWord_of_mem_punctuation {entry : String × Lexeme} (h : entry ∈ punctuation) :
    entry.2.isWord = false := by
  have hall : punctuation.all (fun entry => !entry.2.isWord) = true := rfl
  simpa using List.all_eq_true.1 hall entry h

theorem nodup_punctuation : (punctuation.map Prod.snd).Nodup := by decide +kernel

theorem eq_of_ofName {w : List Char} {name : String}
    (h : ofName (String.ofList w) = .ident name) : w = name.toList := by
  unfold ofName at h
  split at h <;> cases h
  rw [String.toList_ofList]

section

variable {offset : Nat} {w r : List Char}

theorem text_of_ident {name : String} (hw : w ≠ [])
    (h : scan offset (w ++ r) = .ok (.ident name, w.length)) : w = name.toList := by
  rcases cases_of_scan (by simp [hw]) h with ⟨x, -, hl⟩ | ⟨s, hl⟩ | ⟨v, r', heq, hlength, -, hl⟩ |
    ⟨entry, hentry, -, -, hl⟩
  · cases hl
  · cases hl
  · obtain ⟨rfl, -⟩ := List.append_inj heq hlength.symm
    exact eq_of_ofName hl.symm
  · have hword := isWord_of_mem_punctuation hentry
    rw [← hl] at hword
    cases hword

theorem text_of_punctuation {spelling : String} {l : Lexeme}
    (hentry : (spelling, l) ∈ punctuation) (hw : w ≠ [])
    (h : scan offset (w ++ r) = .ok (l, w.length)) : w = spelling.toList := by
  have hword : l.isWord = false := isWord_of_mem_punctuation hentry
  rcases cases_of_scan (by simp [hw]) h with ⟨x, -, hl⟩ | ⟨s, hl⟩ | ⟨v, r', -, -, -, hl⟩ |
    ⟨entry', hentry', hprefix, hlength, hl⟩
  · rw [hl] at hword
    cases hword
  · rw [hl] at hword
    cases hword
  · rw [hl, isWord_ofName] at hword
    cases hword
  · obtain rfl : (spelling, l) = entry' :=
      List.inj_on_of_nodup_map nodup_punctuation hentry hentry' hl
    obtain ⟨s, hs⟩ := hprefix
    exact (List.append_inj hs (String.length_toList.trans hlength)).1.symm

end

end Lexeme

namespace Token

variable {offset : Nat} {cs rest : List Char} {t : Token} {ts : List Token}

namespace Row

theorem blank_of_nil (h : Row offset cs rest []) : Blank cs := by
  generalize hts : ([] : List Token) = ts at h
  induction h with
  | nil => simp [Blank]
  | blank hc _ ih => exact List.forall_mem_cons.2 ⟨hc, ih hts⟩
  | word => cases hts

/-- The first word of a row, with what stands before it and behind it. -/
theorem exists_word (h : Row offset cs rest (t :: ts)) :
    ∃ gap w ds, cs = gap ++ (w ++ ds) ∧ Blank gap ∧ w ≠ [] ∧
      Lexeme.scan t.span.start (w ++ (ds ++ rest)) = .ok (t.lexeme, w.length) ∧
      t.span.start = offset + byteLength gap ∧ t.span.stop = t.span.start + byteLength w ∧
      Row t.span.stop ds rest ts := by
  generalize hts : t :: ts = us at h
  induction h with
  | nil => cases hts
  | @blank offset c cs rest us hc _ ih =>
    obtain ⟨gap, w, ds, rfl, hgap, hw, hscan, hstart, hstop, hrow⟩ := ih hts
    refine ⟨c :: gap, w, ds, rfl, List.forall_mem_cons.2 ⟨hc, hgap⟩, hw, hscan, ?_, hstop, hrow⟩
    rw [hstart, byteLength_cons, Nat.add_assoc]
  | @word offset w cs rest l us hw _ hscan h _ =>
    obtain ⟨rfl, rfl⟩ := List.cons.inj hts
    exact ⟨[], w, cs, rfl, by simp [Blank], hw, hscan, rfl, rfl, h⟩

end Row

/-- The row is a name in any number of parentheses. -/
inductive Grouped (name : String) : List Token → Prop where
  | name {t : Token} : t.lexeme = .ident name → Grouped name [t]
  | group {o c : Token} {ts : List Token} : o.lexeme = .lparen → c.lexeme = .rparen →
      Grouped name ts → Grouped name (o :: (ts ++ [c]))

/-- The text of a name in parentheses. By induction on the parentheses: each pair of them takes the
blanks within it. -/
theorem Grouped.exists_parenthesized {name : String} (h : Grouped name ts)
    (hrow : Row offset cs rest ts) :
    ∃ gap ds gap', cs = gap ++ (ds ++ gap') ∧ Blank gap ∧ Blank gap' ∧
      Parenthesized name.toList ds ∧ (cover ts).start = offset + byteLength gap := by
  have opening : ("(", Lexeme.lparen) ∈ Lexeme.punctuation := by decide
  have closing : (")", Lexeme.rparen) ∈ Lexeme.punctuation := by decide
  induction h generalizing offset cs rest with
  | @name t ht =>
    obtain ⟨gap, w, gap', rfl, hgap, hw, hscan, hstart, -, hgap'⟩ := hrow.exists_word
    rw [ht] at hscan
    obtain rfl := Lexeme.text_of_ident hw hscan
    exact ⟨gap, _, gap', rfl, hgap, hgap'.blank_of_nil, .bare, hstart⟩
  | @group o c ts ho hc _ ih =>
    obtain ⟨gap, w, ds, rfl, hgap, hw, hscan, hstart, -, hds⟩ := hrow.exists_word
    rw [ho] at hscan
    obtain rfl := Lexeme.text_of_punctuation opening hw hscan
    obtain ⟨xs, ys, rfl, hxs, hys, -⟩ := hds.split
    obtain ⟨inner, core, inner', rfl, hinner, hinner', hcore, -⟩ := ih hxs
    obtain ⟨before, w', gap', rfl, hbefore, hw', hscan', -, -, hgap'⟩ := hys.exists_word
    rw [hc] at hscan'
    obtain rfl := Lexeme.text_of_punctuation closing hw' hscan'
    exact ⟨gap, _, gap', by simp, hgap, hgap'.blank_of_nil,
      .pair hinner (hinner'.append hbefore) hcore, hstart⟩

end Token

end SigilExpr
