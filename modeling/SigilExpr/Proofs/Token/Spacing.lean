import Mathlib.Data.List.Forall2
import SigilExpr.Proofs.Token.Row

/-!
# Words with other blanks between them

The words of a source are disjoint stretches in order, with nothing but blanks outside them. A word
is determined by its own text: it is the same word where it stands alone, and so before any blank.
So the words of a source may be spaced anew, with any blanks between them, and read as before.

Between two words there must be a blank, for two words together may spell a third.
-/

set_option autoImplicit false

namespace SigilExpr

open Text

namespace Text

def Blank (cs : List Char) : Prop := ∀ c ∈ cs, isBlank c = true

instance (cs : List Char) : Decidable (Blank cs) := List.decidableBAll _ cs

/-- The words with a gap before each of them and one behind the last. -/
def spread (gaps words : List (List Char)) (last : List Char) : List Char :=
  (List.zipWith (· ++ ·) gaps words).flatten ++ last

@[simp] theorem spread_nil (gaps : List (List Char)) (last : List Char) :
    spread gaps [] last = last := by
  simp [spread]

@[simp] theorem spread_cons (gap word : List Char) (gaps words : List (List Char))
    (last : List Char) :
    spread (gap :: gaps) (word :: words) last = gap ++ (word ++ spread gaps words last) := by
  simp [spread]

theorem Blank.head {cs : List Char} (h : Blank cs) : ∀ c ∈ cs.head?, isBlank c = true :=
  fun c hc => h c (List.mem_of_head? hc)

/-- Behind a word the text begins with the next gap, or it ends. -/
theorem head_spread {gaps words : List (List Char)} {last : List Char}
    (hblank : ∀ gap ∈ gaps, Blank gap) (hne : ∀ gap ∈ gaps, gap ≠ []) (hlast : Blank last) :
    ∀ c ∈ (spread gaps words last).head?, isBlank c = true := by
  cases gaps with
  | nil => simpa [spread] using hlast.head
  | cons gap gaps =>
    cases words with
    | nil => simpa using hlast.head
    | cons word words =>
      obtain ⟨c, cs, rfl⟩ := List.exists_cons_of_ne_nil (hne gap List.mem_cons_self)
      rintro _ ⟨⟩
      exact hblank _ List.mem_cons_self c List.mem_cons_self

end Text

namespace Lexeme

/-- The text is one word, no more and no less, for the lexeme. -/
structure Spelled (w : List Char) (l : Lexeme) : Prop where
  ne_nil : w ≠ []
  stops : Stops isBlank w
  scan : scan 0 w = .ok (l, w.length)

variable {w r : List Char} {l : Lexeme}

/-- A word of a text is determined by its own text. -/
theorem spelled_of_scan {offset : Nat} (hw : w ≠ []) (hblank : Stops isBlank w)
    (h : Lexeme.scan offset (w ++ r) = .ok (l, w.length)) : Spelled w l := by
  obtain ⟨v, rest, heq, hlength, -, hstable⟩ := exists_of_scan (by simp [hw]) h
  obtain ⟨rfl, rfl⟩ := List.append_inj heq hlength.symm
  refine ⟨hw, hblank, ?_⟩
  simpa using hstable 0 [] (.of_isPrefix List.nil_prefix)

end Lexeme

namespace Token

/-- The part of the source that the token occupies. -/
def textIn (source : List Char) (t : Token) : List Char := slice source t.span.start t.span.stop

variable {offset : Nat} {cs rest source : List Char} {ts : List Token}

theorem Row.spelled (h : Row offset cs rest ts) (before after : List Char)
    (hsource : source = before ++ (cs ++ after)) (hoffset : byteLength before = offset) :
    ∀ t ∈ ts, Lexeme.Spelled (t.textIn source) t.lexeme := by
  induction h generalizing before with
  | nil => simp
  | @blank offset c cs rest ts _ _ ih =>
    exact ih (before ++ [c]) (by simp [hsource]) (by simp [hoffset])
  | @word offset w cs rest l ts hw hblank hscan _ ih =>
    refine List.forall_mem_cons.2 ⟨?_, ih (before ++ w) (by simp [hsource]) (by simp [hoffset])⟩
    have htext : textIn source ⟨l, ⟨offset, offset + byteLength w⟩⟩ = w := by
      have hslice := slice_append before w (cs ++ after)
      rwa [hoffset, List.append_assoc, ← List.append_assoc w, ← hsource] at hslice
    rw [htext]
    exact Lexeme.spelled_of_scan hw hblank hscan

/-- A character outside the words is a blank. -/
theorem Row.covers (h : Row offset cs rest ts) {xs ys : List Char} {c : Char}
    (hcs : cs = xs ++ c :: ys) :
    isBlank c = true ∨ ∃ t ∈ ts, t.span.start ≤ offset + byteLength xs ∧
      offset + byteLength xs + c.utf8Size ≤ t.span.stop := by
  induction h generalizing xs with
  | nil => simp at hcs
  | @blank offset d cs rest ts hd _ ih =>
    cases xs with
    | nil =>
      obtain ⟨rfl, -⟩ := List.cons.inj hcs
      exact .inl hd
    | cons x xs =>
      obtain ⟨rfl, htail⟩ := List.cons.inj hcs
      rw [byteLength_cons, ← Nat.add_assoc]
      exact ih htail
  | @word offset w cs rest l ts hw _ _ _ ih =>
    have behind (zs : List Char) (hcs : cs = zs ++ c :: ys) :
        isBlank c = true ∨ ∃ t ∈ (⟨l, ⟨offset, offset + byteLength w⟩⟩ :: ts : List Token),
          t.span.start ≤ offset + byteLength (w ++ zs) ∧
            offset + byteLength (w ++ zs) + c.utf8Size ≤ t.span.stop := by
      rw [byteLength_append, ← Nat.add_assoc]
      refine (ih hcs).imp_right ?_
      rintro ⟨t, ht, hwithin⟩
      exact ⟨t, List.mem_cons_of_mem _ ht, hwithin⟩
    rcases List.append_eq_append_iff.1 hcs with ⟨zs, rfl, hzs⟩ | ⟨zs, rfl, hzs⟩
    · exact behind zs hzs
    · cases zs with
      | nil =>
        simpa using behind [] hzs.symm
      | cons z zs =>
        obtain ⟨rfl, -⟩ := List.cons.inj hzs
        refine .inr ⟨_, List.mem_cons_self, Nat.le_add_right _ _, ?_⟩
        simp only [byteLength_append, byteLength_cons]
        omega

/-- Words that stand alone may be spread over a text. -/
theorem exists_row_spread {words gaps : List (List Char)} {lexemes : List Lexeme}
    {last : List Char} (h : List.Forall₂ Lexeme.Spelled words lexemes)
    (hlength : gaps.length = words.length) (hblank : ∀ gap ∈ gaps, Blank gap)
    (hne : ∀ gap ∈ gaps.tail, gap ≠ []) (hlast : Blank last) (offset : Nat) :
    ∃ ts, Row offset (spread gaps words last) [] ts ∧ ts.map Token.lexeme = lexemes := by
  induction h generalizing gaps offset with
  | nil => exact ⟨[], by simpa using .blanks hlast, rfl⟩
  | @cons w l words lexemes hw _ ih =>
    cases gaps with
    | nil => cases hlength
    | cons gap gaps =>
      obtain ⟨hgap, hblank⟩ := List.forall_mem_cons.1 hblank
      have hne' : ∀ gap ∈ gaps.tail, gap ≠ [] := fun g hg => hne g (List.mem_of_mem_tail hg)
      have hbehind : ∀ c ∈ (spread gaps words last).head?, isBlank c = true :=
        head_spread hblank hne hlast
      obtain ⟨ts, hts, rfl⟩ :=
        ih (by simpa using hlength) hblank hne' (offset + byteLength gap + byteLength w)
      refine ⟨⟨l, ⟨offset + byteLength gap, offset + byteLength gap + byteLength w⟩⟩ :: ts,
        ?_, rfl⟩
      have hscan : Lexeme.scan (offset + byteLength gap) (w ++ (spread gaps words last ++ [])) =
          .ok (l, w.length) := by
        rw [List.append_nil]
        exact Lexeme.scan_append_of_blank hw.ne_nil hw.scan hbehind _
      rw [spread_cons]
      exact (Row.blanks hgap).append (.word hw.ne_nil hw.stops hscan hts)

/-- The words of a source are stretches that are not empty, disjoint and in order, with blanks only
outside them; spread over a text with any blanks between them they read as before. -/
theorem words_read_alike_spread {tokens : List Token} (h : ofSource source = .ok tokens) :
    ∃ ts, tokens = ts ++ [endAt (byteLength source)] ∧
      (∀ t ∈ ts, t.span.start < t.span.stop ∧
        IsBoundary source t.span.start ∧ IsBoundary source t.span.stop) ∧
      tokens.Pairwise (fun t u => t.span.stop ≤ u.span.start) ∧
      (∀ before c after, source = before ++ c :: after → isBlank c = true ∨
        ∃ t ∈ ts, t.span.start ≤ byteLength before ∧
          byteLength before + c.utf8Size ≤ t.span.stop) ∧
      ∀ gaps last, gaps.length = ts.length → (∀ gap ∈ gaps, Blank gap) →
        (∀ gap ∈ gaps.tail, gap ≠ []) → Blank last →
        ∃ us, ofSource (spread gaps (ts.map (textIn source)) last) = .ok us ∧
          us.map Token.lexeme = tokens.map Token.lexeme := by
  obtain ⟨ts, rfl, hrow⟩ := ofSource_eq_ok_iff.1 h
  refine ⟨ts, rfl, ?_, ?_, ?_, ?_⟩
  · intro t ht
    have hsource : source = [] ++ (source ++ []) := by simp
    obtain ⟨mid, hmid⟩ := hrow.stretch [] [] hsource rfl t ht
    exact ⟨(hrow.bounds t ht).2.1, hmid.isBoundary_start, hmid.isBoundary_stop⟩
  · refine List.pairwise_append.2 ⟨hrow.pairwise, List.pairwise_singleton _ _, ?_⟩
    intro t ht u hu
    obtain rfl := List.mem_singleton.1 hu
    simpa [endAt] using (hrow.bounds t ht).2.2
  · intro before c after hsource
    simpa using hrow.covers hsource
  · intro gaps last hlength hblank hne hlast
    have hspelled : List.Forall₂ Lexeme.Spelled (ts.map (textIn source)) (ts.map Token.lexeme) := by
      rw [List.forall₂_map_left_iff, List.forall₂_map_right_iff, List.forall₂_same]
      exact hrow.spelled [] [] (by simp) rfl
    obtain ⟨us, hus, hlexemes⟩ :=
      exists_row_spread hspelled (by simpa using hlength) hblank hne hlast 0
    exact ⟨_, ofSource_eq_ok_iff.2 ⟨us, rfl, hus⟩, by simp [hlexemes, endAt]⟩

/-- Of three plus signs the first two are a word, and of four points the first three. -/
theorem words_read_alike_spread_sample :
    ∃ us, ofSource "a ++\n+\u00a0 ... .\u2003b\t".toList = .ok us ∧ us.map Token.lexeme =
      [.ident "a", .plusPlus, .plus, .ellipsis, .dot, .ident "b", .eof] := by
  have htokens : ofSource "a+++\u3000....b".toList = .ok
      [⟨.ident "a", ⟨0, 1⟩⟩, ⟨.plusPlus, ⟨1, 3⟩⟩, ⟨.plus, ⟨3, 4⟩⟩, ⟨.ellipsis, ⟨7, 10⟩⟩,
        ⟨.dot, ⟨10, 11⟩⟩, ⟨.ident "b", ⟨11, 12⟩⟩, endAt 12] := rfl
  obtain ⟨ts, heq, -, -, -, hspread⟩ := words_read_alike_spread htokens
  obtain ⟨rfl, -⟩ := List.append_inj' (show [_, _, _, _, _, _] ++ [_] = ts ++ [_] from heq) rfl
  exact hspread [[], [' '], ['\n'], ['\u00a0', ' '], [' '], ['\u2003']] ['\t'] rfl
    (by decide) (by decide) (by decide)

end Token

end SigilExpr
