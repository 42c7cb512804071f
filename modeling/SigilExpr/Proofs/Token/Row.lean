import SigilExpr.Proofs.Token.Literal
import SigilExpr.Proofs.Syntax.Tokens

/-!
# Rows of tokens in a text

A word is taken from the front of a text, and it is the same word wherever the text stands, and also
where less of the text follows it or where a blank does. So the tokens of a stretch of a source are
those of the source, moved to where the stretch begins.
-/

set_option autoImplicit false

namespace SigilExpr

open Text

namespace Text

/-- A text may stand for another one behind any word: it is alike up to where it ends or has a
blank. -/
def Replaces (r r' : List Char) : Prop :=
  ∃ u v, r' = u ++ v ∧ u <+: r ∧ ∀ c ∈ v.head?, isBlank c = true

namespace Replaces

variable {r r' : List Char}

theorem of_isPrefix (h : r' <+: r) : Replaces r r' := ⟨r', [], by simp, h, by simp⟩

theorem of_blank {b : Char} (hb : isBlank b = true) (zs : List Char) : Replaces r (b :: zs) :=
  ⟨[], b :: zs, rfl, List.nil_prefix, by rintro _ ⟨⟩; exact hb⟩

theorem append (h : Replaces r r') (w : List Char) : Replaces (w ++ r) (w ++ r') := by
  obtain ⟨u, v, rfl, hu, hv⟩ := h
  exact ⟨w ++ u, v, by simp, (List.prefix_append_right_inj w).2 hu, hv⟩

theorem resumes (h : Replaces r r') : Resumes r r' := by
  obtain ⟨u, v, rfl, ⟨zs, rfl⟩, hv⟩ := h
  cases u with
  | nil => exact fun c hc => .inr (hv c hc)
  | cons d u => exact fun c hc => .inl hc

end Replaces

end Text

namespace Lexeme

theorem printable_of_mem_punctuation {entry : String × Lexeme} (h : entry ∈ punctuation) :
    ∀ c ∈ entry.1.toList, Printable c := by
  have hall : punctuation.all (fun entry => entry.1.toList.all fun c =>
      decide (0x20 < c.toNat) && decide (c.toNat < 0x7F)) = true := rfl
  intro c hc
  have hprintable := List.all_eq_true.1 (List.all_eq_true.1 hall entry h) c hc
  simpa [Printable] using hprintable

/-- A spelling at the front of the second text is at the front of the first one already. -/
theorem prefix_of_replaces {spelling w r r' : List Char} (hprintable : ∀ c ∈ spelling, Printable c)
    (hr : Replaces r r') (h : spelling <+: w ++ r') : spelling <+: w ++ r := by
  obtain ⟨u, v, rfl, hu, hv⟩ := hr
  have hwu : w ++ u <+: w ++ r := (List.prefix_append_right_inj w).2 hu
  obtain ⟨ys, hys⟩ := h
  rw [← List.append_assoc] at hys
  rcases List.append_eq_append_iff.1 hys with ⟨es, heq, -⟩ | ⟨es, rfl, rfl⟩
  · exact (heq ▸ List.prefix_append spelling es).trans hwu
  · cases es with
    | nil => rwa [List.append_nil]
    | cons e es => exact absurd (hprintable e (by simp)) (not_printable_of_isBlank (hv e rfl))

/-- The punctuation stands at the front of the text, and what follows it makes it no longer. -/
theorem exists_of_punctuation? {cs : List Char} {l : Lexeme} {n : Nat}
    (h : punctuation? cs = some (l, n)) :
    ∃ w r, cs = w ++ r ∧ w.length = n ∧ w ≠ [] ∧ (∀ c ∈ w, Printable c) ∧
      ∀ r', Replaces r r' → punctuation? (w ++ r') = some (l, n) := by
  obtain ⟨before, entry, after, hsplit, hentry, hbefore⟩ := List.findSome?_eq_some_iff.1 h
  have hmem : ∀ e ∈ before ++ entry :: after, ∀ c ∈ e.1.toList, Printable c :=
    hsplit ▸ fun e => printable_of_mem_punctuation
  have hspelled : entry.1.toList ≠ [] := by
    have hall : ∀ e ∈ punctuation, e.1.toList ≠ [] := by decide
    exact hall entry (by simp [hsplit])
  split at hentry
  case isFalse => cases hentry
  case isTrue hprefix =>
  cases hentry
  obtain ⟨r, rfl⟩ := List.isPrefixOf_iff_prefix.1 hprefix
  refine ⟨entry.1.toList, r, rfl, String.length_toList, hspelled, hmem entry (by simp), ?_⟩
  intro r' hr
  refine List.findSome?_eq_some_iff.2 ⟨before, entry, after, hsplit, ?_, ?_⟩
  · rw [if_pos (List.isPrefixOf_iff_prefix.2 (List.prefix_append _ _))]
  · intro e he
    have hnone := hbefore e he
    split at hnone
    · cases hnone
    · next hno =>
      rw [List.isPrefixOf_iff_prefix] at hno
      refine if_neg ?_
      rw [List.isPrefixOf_iff_prefix]
      exact fun h => hno (prefix_of_replaces (hmem e (by simp [he])) hr h)

/-- The word stands at the front of the text, and it is the same one wherever it stands and whatever
may stand behind it. -/
theorem exists_of_scan {offset n : Nat} {cs : List Char} {l : Lexeme} (hne : cs ≠ [])
    (h : scan offset cs = .ok (l, n)) :
    ∃ w r, cs = w ++ r ∧ w.length = n ∧ w ≠ [] ∧
      ∀ offset' r', Replaces r r' → scan offset' (w ++ r') = .ok (l, n) := by
  obtain ⟨c, cs, rfl⟩ := List.exists_cons_of_ne_nil hne
  simp only [scan] at h
  split at h
  · next hbegins =>
    split at h
    · next x k hscan =>
      cases h
      obtain ⟨w, r, heq, hlen, hw, hstable⟩ := NumberLiteral.exists_of_scan hbegins hscan
      refine ⟨w, r, heq, hlen, hw, ?_⟩
      intro offset' r' hr
      obtain ⟨hbegins', hscan'⟩ := hstable offset' r' hr.resumes
      obtain ⟨d, w, rfl⟩ := List.exists_cons_of_ne_nil hw
      rw [List.cons_append] at hbegins' hscan' ⊢
      simp only [scan, hbegins', if_true, hscan']
    · cases h
  · next hbegins =>
    have hbegins := Bool.eq_false_iff.2 hbegins
    split at h
    · next hquote =>
      split at h
      · next s k hread =>
        cases h
        obtain ⟨w, r, rfl, rfl, hstable⟩ := Quoted.exists_of_read hread
        refine ⟨c :: w, r, rfl, rfl, by simp, ?_⟩
        intro offset' r' hr
        have hbegins' : NumberLiteral.begins (c :: (w ++ r')) = false :=
          NumberLiteral.begins_eq_false_append (w := c :: w) hbegins (by simp) hr.resumes
        simp [scan, hbegins', hquote, hstable]
      · cases h
    · next hquote =>
      split at h
      · next hname =>
        cases h
        obtain ⟨u, r, rfl, hu, htake⟩ := exists_takeWhile (fun _ => printable_of_isNameRest) cs
        rw [(htake r (.refl r)).1]
        refine ⟨c :: u, r, rfl, rfl, by simp, ?_⟩
        intro offset' r' hr
        have hbegins' : NumberLiteral.begins (c :: (u ++ r')) = false :=
          NumberLiteral.begins_eq_false_append (w := c :: u) hbegins (by simp) hr.resumes
        simp [scan, hbegins', hquote, hname, (htake r' hr.resumes).1]
      · next hname =>
        split at h
        · next found hfound =>
          cases h
          obtain ⟨w, r, heq, hlen, hw, -, hstable⟩ := exists_of_punctuation? hfound
          refine ⟨w, r, heq, hlen, hw, ?_⟩
          intro offset' r' hr
          have hpunctuation := hstable r' hr
          have hbegins' : NumberLiteral.begins (w ++ r') = false :=
            NumberLiteral.begins_eq_false_append (heq ▸ hbegins) hw hr.resumes
          obtain ⟨d, w, rfl⟩ := List.exists_cons_of_ne_nil hw
          obtain ⟨rfl, -⟩ := List.cons.inj heq
          rw [List.cons_append] at hbegins' hpunctuation ⊢
          simp [scan, hbegins', hquote, hname, hpunctuation]
        · cases h

/-- A word that stands alone is the same word before a blank, and wherever it stands. -/
theorem scan_append_of_blank {w r : List Char} {l : Lexeme} (hw : w ≠ [])
    (h : scan 0 w = .ok (l, w.length)) (hr : ∀ c ∈ r.head?, isBlank c = true) (offset : Nat) :
    scan offset (w ++ r) = .ok (l, w.length) := by
  obtain ⟨v, rest, rfl, hlength, -, hstable⟩ := exists_of_scan hw h
  obtain rfl : rest = [] := by simpa using hlength
  rw [List.append_nil] at hstable ⊢
  exact hstable offset r ⟨[], r, rfl, List.nil_prefix, hr⟩

theorem fault_of_scan {offset : Nat} {cs : List Char} {f : Fault}
    (h : scan offset cs = .error f) : f.Within offset cs := by
  cases cs with
  | nil => cases h
  | cons c cs =>
    simp only [scan] at h
    split at h
    · next hbegins =>
      split at h
      · cases h
      · next hscan =>
        cases h
        exact NumberLiteral.fault_of_scan hbegins hscan
    · split at h
      · next hquote =>
        split at h
        · cases h
        · next hread =>
          cases h
          refine Quoted.fault_of_read hread [c] (by simp) ?_
          simp only [Bool.or_eq_true, decide_eq_true_eq] at hquote
          rcases hquote with rfl | rfl <;> rfl
      · split at h
        · cases h
        · split at h
          · cases h
          · cases h
            exact ⟨_, [], [c], cs, rfl, by simp, rfl⟩

end Lexeme

theorem Fault.Within.append {f : Fault} {offset : Nat} {w cs : List Char}
    (h : f.Within (offset + byteLength w) cs) : f.Within offset (w ++ cs) := by
  obtain ⟨cause, a, mid, b, rfl, hne, rfl⟩ := h
  exact ⟨cause, w ++ a, mid, b, by simp, hne, by simp [Nat.add_assoc]⟩

/-- The bytes of a stretch in a text that stands `offset` bytes nearer to the front. -/
def Span.back (offset : Nat) (span : Span) : Span := ⟨span.start - offset, span.stop - offset⟩

namespace Token

variable {offset : Nat} {cs ds rest rest' w : List Char} {ts us : List Token} {l : Lexeme}

theorem ofText_skip (w cs : List Char) (offset : Nat) :
    ofText w.length offset (w ++ cs) = ofText 0 (offset + byteLength w) cs := by
  induction w generalizing offset with
  | nil => rfl
  | cons c w ih =>
    rw [List.length_cons, List.cons_append, ofText, ih, byteLength_cons, Nat.add_assoc]

theorem ofText_blank {c : Char} (hc : isBlank c = true) :
    ofText 0 offset (c :: cs) = ofText 0 (offset + c.utf8Size) cs := by
  rw [ofText, if_pos hc]

theorem ofText_fault {f : Fault} (hne : cs ≠ []) (hblank : Stops isBlank cs)
    (h : Lexeme.scan offset cs = .error f) : ofText 0 offset cs = .error f := by
  obtain ⟨c, cs, rfl⟩ := List.exists_cons_of_ne_nil hne
  rw [ofText, if_neg (Bool.eq_false_iff.1 (hblank c rfl)), h]

theorem ofText_word (hw : w ≠ []) (hblank : Stops isBlank w)
    (h : Lexeme.scan offset (w ++ cs) = .ok (l, w.length)) :
    ofText 0 offset (w ++ cs) = (ofText 0 (offset + byteLength w) cs).map
      (⟨l, ⟨offset, offset + byteLength w⟩⟩ :: ·) := by
  obtain ⟨c, w, rfl⟩ := List.exists_cons_of_ne_nil hw
  rw [List.cons_append] at h ⊢
  rw [ofText, if_neg (Bool.eq_false_iff.1 (hblank c rfl)), h]
  have hskip := ofText_skip w cs (offset + c.utf8Size)
  rw [Nat.add_assoc, ← byteLength_cons] at hskip
  simp only [List.length_cons, Nat.add_sub_cancel, hskip]
  have htake : (c :: (w ++ cs)).take (w.length + 1) = c :: w := by simp
  rw [htake]
  cases ofText 0 (offset + byteLength (c :: w)) cs <;> rfl

/-- What holds of a text if it holds of what follows its first word holds of every text. -/
theorem text_induction {P : Nat → List Char → Prop} (nil : ∀ offset, P offset [])
    (blank : ∀ offset c cs, isBlank c = true → P (offset + c.utf8Size) cs → P offset (c :: cs))
    (fault : ∀ offset cs f, cs ≠ [] → Stops isBlank cs → Lexeme.scan offset cs = .error f →
      P offset cs)
    (word : ∀ offset w cs l, w ≠ [] → Stops isBlank w →
      Lexeme.scan offset (w ++ cs) = .ok (l, w.length) → P (offset + byteLength w) cs →
      P offset (w ++ cs))
    (offset : Nat) (cs : List Char) : P offset cs := by
  induction hn : cs.length using Nat.strong_induction_on generalizing offset cs with
  | _ n ih =>
    subst hn
    cases cs with
    | nil => exact nil offset
    | cons c cs =>
      cases hc : isBlank c with
      | true => exact blank offset c cs hc (ih _ (by simp) _ _ rfl)
      | false =>
        have hstop : Stops isBlank (c :: cs) := by
          rintro _ ⟨⟩
          exact hc
        cases hscan : Lexeme.scan offset (c :: cs) with
        | error f => exact fault offset _ f (by simp) hstop hscan
        | ok found =>
          obtain ⟨l, n⟩ := found
          obtain ⟨w, r, heq, rfl, hw, -⟩ := Lexeme.exists_of_scan (by simp) hscan
          rw [heq] at hstop hscan ih ⊢
          have hstop' : Stops isBlank w := by
            obtain ⟨d, w, rfl⟩ := List.exists_cons_of_ne_nil hw
            exact hstop
          have hlen := List.length_pos_iff.2 hw
          exact word offset w r l hw hstop' hscan (ih _ (by simp; omega) _ _ rfl)

/-- The tokens of the text `cs` that stands at byte `offset` with `rest` behind it. -/
inductive Row : Nat → List Char → List Char → List Token → Prop where
  | nil {offset : Nat} {rest : List Char} : Row offset [] rest []
  | blank {offset : Nat} {c : Char} {cs rest : List Char} {ts : List Token} :
      isBlank c = true → Row (offset + c.utf8Size) cs rest ts → Row offset (c :: cs) rest ts
  | word {offset : Nat} {w cs rest : List Char} {l : Lexeme} {ts : List Token} :
      w ≠ [] → Stops isBlank w →
      Lexeme.scan offset (w ++ (cs ++ rest)) = .ok (l, w.length) →
      Row (offset + byteLength w) cs rest ts →
      Row offset (w ++ cs) rest (⟨l, ⟨offset, offset + byteLength w⟩⟩ :: ts)

/-- The end token of a text that ends at byte `stop`. -/
def endAt (stop : Nat) : Token := ⟨.eof, ⟨stop, stop⟩⟩

/-- The tokens of a text are those of its front, and then those of what follows. -/
theorem Row.ofText_append (h : Row offset cs rest ts) :
    ofText 0 offset (cs ++ rest) = (ofText 0 (offset + byteLength cs) rest).map (ts ++ ·) := by
  induction h with
  | @nil offset rest =>
    change ofText 0 offset rest = (ofText 0 offset rest).map id
    cases ofText 0 offset rest <;> rfl
  | blank hc _ ih =>
    rw [List.cons_append, ofText_blank hc, ih, byteLength_cons, Nat.add_assoc]
  | @word offset w cs rest l ts hw hblank hscan _ ih =>
    rw [List.append_assoc, ofText_word hw hblank hscan, ih, byteLength_append, Nat.add_assoc]
    cases ofText 0 (offset + (byteLength w + byteLength cs)) rest <;> rfl

theorem Row.ofText_eq (h : Row offset cs [] ts) :
    ofText 0 offset cs = .ok (ts ++ [endAt (offset + byteLength cs)]) := by
  have happend := h.ofText_append
  rwa [List.append_nil] at happend

theorem exists_row {tokens : List Token} : ofText 0 offset cs = .ok tokens →
    ∃ ts, tokens = ts ++ [endAt (offset + byteLength cs)] ∧ Row offset cs [] ts := by
  induction offset, cs using text_induction generalizing tokens with
  | nil offset =>
    rintro ⟨⟩
    exact ⟨[], rfl, .nil⟩
  | blank offset c cs hc ih =>
    intro h
    rw [ofText_blank hc] at h
    obtain ⟨ts, rfl, hrow⟩ := ih h
    exact ⟨ts, by rw [byteLength_cons, Nat.add_assoc], .blank hc hrow⟩
  | fault offset cs f hne hblank hscan =>
    intro h
    rw [ofText_fault hne hblank hscan] at h
    cases h
  | word offset w cs l hw hblank hscan ih =>
    intro h
    rw [ofText_word hw hblank hscan] at h
    cases htail : ofText 0 (offset + byteLength w) cs with
    | error f =>
      rw [htail] at h
      cases h
    | ok tail =>
      rw [htail] at h
      cases h
      obtain ⟨ts, rfl, hrow⟩ := ih htail
      refine ⟨_ :: ts, ?_, .word hw hblank (by rwa [List.append_nil]) hrow⟩
      rw [byteLength_append, Nat.add_assoc]
      rfl

theorem ofSource_eq_ok_iff {source : List Char} {tokens : List Token} :
    ofSource source = .ok tokens ↔
      ∃ ts, tokens = ts ++ [endAt (byteLength source)] ∧ Row 0 source [] ts := by
  constructor
  · intro h
    obtain ⟨ts, rfl, hrow⟩ := exists_row h
    exact ⟨ts, by rw [Nat.zero_add], hrow⟩
  · rintro ⟨ts, rfl, hrow⟩
    rw [ofSource, hrow.ofText_eq, Nat.zero_add]

theorem fault_of_ofText {f : Fault} : ofText 0 offset cs = .error f → f.Within offset cs := by
  induction offset, cs using text_induction generalizing f with
  | nil offset => exact fun h => by cases h
  | blank offset c cs hc ih =>
    intro h
    rw [ofText_blank hc] at h
    exact Fault.Within.append (w := [c]) (ih h)
  | fault offset cs f' hne hblank hscan =>
    intro h
    rw [ofText_fault hne hblank hscan] at h
    cases h
    exact Lexeme.fault_of_scan hscan
  | word offset w cs l hw hblank hscan ih =>
    intro h
    rw [ofText_word hw hblank hscan] at h
    cases htail : ofText 0 (offset + byteLength w) cs with
    | ok tail =>
      rw [htail] at h
      cases h
    | error f' =>
      rw [htail] at h
      cases h
      exact (ih htail).append

/-- The token of a text that stands `offset` bytes nearer to the front. -/
def back (offset : Nat) (t : Token) : Token := ⟨t.lexeme, t.span.back offset⟩

namespace Row

variable {offset k start : Nat}

theorem blanks (h : ∀ c ∈ cs, isBlank c = true) : Row offset cs rest [] := by
  induction cs generalizing offset with
  | nil => exact .nil
  | cons c cs ih =>
    obtain ⟨hc, hcs⟩ := List.forall_mem_cons.1 h
    exact .blank hc (ih hcs)

/-- The row of a stretch does not depend on where the stretch is, nor much on what is behind it. -/
theorem move (h : Row start cs rest ts) (hr : Replaces rest rest') (hstart : start = offset + k) :
    Row offset cs rest' (ts.map (back k)) := by
  induction h generalizing offset with
  | nil => exact .nil
  | @blank start c cs rest ts hc _ ih =>
    refine .blank hc (ih hr ?_)
    omega
  | @word start w cs rest l ts hw hblank hscan _ ih =>
    subst hstart
    obtain ⟨w', r, heq, hlen, -, hstable⟩ := Lexeme.exists_of_scan (by simp [hw]) hscan
    obtain ⟨rfl, rfl⟩ := List.append_inj heq hlen.symm
    have htail : Row (offset + byteLength w) cs rest' (ts.map (back k)) := ih hr (by omega)
    have hword := Row.word hw hblank (hstable offset _ (hr.append cs)) htail
    have hback : back k ⟨l, ⟨offset + k, offset + k + byteLength w⟩⟩ =
        ⟨l, ⟨offset, offset + byteLength w⟩⟩ := by
      simp only [back, Span.back, Token.mk.injEq, Span.mk.injEq, true_and]
      omega
    rwa [List.map_cons, hback]

theorem append (h : Row offset cs (ds ++ rest) ts) (h' : Row (offset + byteLength cs) ds rest us) :
    Row offset (cs ++ ds) rest (ts ++ us) := by
  generalize hrest : ds ++ rest = rest' at h
  induction h with
  | nil => exact h'
  | blank hc _ ih =>
    rw [byteLength_cons, ← Nat.add_assoc] at h'
    exact .blank hc (ih h' hrest)
  | word hw hblank hscan _ ih =>
    subst hrest
    rw [byteLength_append, ← Nat.add_assoc] at h'
    rw [List.append_assoc]
    exact .word hw hblank (by rwa [List.append_assoc]) (ih h' rfl)

/-- A row splits where a word ends, at byte `offset` if that is before the first one. -/
theorem split (h : Row offset cs rest (ts ++ us)) :
    ∃ xs ys, cs = xs ++ ys ∧ Row offset xs (ys ++ rest) ts ∧
      Row (offset + byteLength xs) ys rest us ∧
      offset + byteLength xs = (ts.getLast?.map fun t => t.span.stop).getD offset := by
  generalize hall : ts ++ us = all at h
  induction h generalizing ts with
  | nil =>
    obtain ⟨rfl, rfl⟩ := List.append_eq_nil_iff.1 hall
    exact ⟨[], [], rfl, .nil, .nil, rfl⟩
  | @blank offset c cs rest all hc h ih =>
    cases ts with
    | nil =>
      subst hall
      exact ⟨[], c :: cs, rfl, .nil, .blank hc h, rfl⟩
    | cons t ts =>
      obtain ⟨xs, ys, rfl, hxs, hys, hlen⟩ := ih hall
      refine ⟨c :: xs, ys, rfl, .blank hc hxs, by rwa [byteLength_cons, ← Nat.add_assoc], ?_⟩
      rw [byteLength_cons, ← Nat.add_assoc, hlen, List.getLast?_cons]
      rfl
  | @word offset w cs rest l all hw hblank hscan h ih =>
    cases ts with
    | nil =>
      subst hall
      exact ⟨[], w ++ cs, rfl, .nil, .word hw hblank hscan h, rfl⟩
    | cons t ts =>
      obtain ⟨rfl, htail⟩ := List.cons.inj hall
      obtain ⟨xs, ys, rfl, hxs, hys, hlen⟩ := ih htail
      refine ⟨w ++ xs, ys, by simp, .word hw hblank (by simpa using hscan) hxs, ?_, ?_⟩
      · rwa [byteLength_append, ← Nat.add_assoc]
      · rw [byteLength_append, ← Nat.add_assoc, hlen, List.getLast?_cons]
        cases ts.getLast? <;> rfl

/-- The first word of a row stands behind blanks only. -/
theorem trim {t : Token} (h : Row offset cs rest (t :: ts)) :
    ∃ bs ys, cs = bs ++ ys ∧ offset + byteLength bs = t.span.start ∧
      Row t.span.start ys rest (t :: ts) := by
  generalize hall : t :: ts = all at h
  induction h with
  | nil => cases hall
  | @blank offset c cs rest all hc h ih =>
    obtain ⟨bs, ys, rfl, hlen, hrow⟩ := ih hall
    exact ⟨c :: bs, ys, rfl, by rw [← hlen, byteLength_cons, Nat.add_assoc], hrow⟩
  | word hw hblank hscan h ih =>
    obtain ⟨rfl, rfl⟩ := List.cons.inj hall
    exact ⟨[], _, rfl, rfl, .word hw hblank hscan h⟩

theorem bounds (h : Row offset cs rest ts) :
    ∀ t ∈ ts, offset ≤ t.span.start ∧ t.span.start < t.span.stop ∧
      t.span.stop ≤ offset + byteLength cs := by
  induction h with
  | nil => simp
  | blank hc _ ih =>
    intro t ht
    have hbounds := ih t ht
    rw [byteLength_cons]
    omega
  | word hw _ _ _ ih =>
    have hpos := byteLength_pos hw
    rw [List.forall_mem_cons, byteLength_append]
    refine ⟨by dsimp only; omega, ?_⟩
    intro t ht
    have hbounds := ih t ht
    omega

/-- Each token of the row is a stretch of the text. -/
theorem stretch (h : Row offset cs rest ts) {source : List Char} (before after : List Char)
    (hsource : source = before ++ (cs ++ after)) (hoffset : byteLength before = offset) :
    ∀ t ∈ ts, ∃ mid, Stretch source t.span mid := by
  induction h generalizing before with
  | nil => simp
  | @blank offset c cs rest ts _ _ ih =>
    exact ih (before ++ [c]) (by simp [hsource]) (by simp [hoffset])
  | @word offset w cs rest l ts _ _ _ _ ih =>
    refine List.forall_mem_cons.2 ⟨⟨w, before, cs ++ after, by simp [hsource], by rw [hoffset]⟩, ?_⟩
    exact ih (before ++ w) (by simp [hsource]) (by simp [hoffset])

theorem pairwise (h : Row offset cs rest ts) :
    ts.Pairwise fun t u => t.span.stop ≤ u.span.start := by
  induction h with
  | nil => exact .nil
  | blank _ _ ih => exact ih
  | word _ _ _ h ih => exact .cons (fun u hu => (h.bounds u hu).1) ih

theorem eof_notMem (h : Row offset cs rest ts) : Lexeme.eof ∉ ts.map Token.lexeme := by
  induction h with
  | nil => simp
  | blank _ _ ih => exact ih
  | word hw _ hscan _ ih =>
    obtain ⟨c, w, rfl⟩ := List.exists_cons_of_ne_nil hw
    have hne := Lexeme.scan_ne_eof hscan
    simpa [hne.symm] using ih

end Row

end Token

end SigilExpr
