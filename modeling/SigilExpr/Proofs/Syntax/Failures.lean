import SigilExpr.Proofs.Syntax.Beginnings

/-!
# Where the parser fails

Where a parser fails, the tokens that it has moved over are a beginning of what it was to read, and
the fault is that of the token behind them. A parser may also fail over its limit, but not if the
limit exceeds the number of the tokens.
-/

set_option autoImplicit false

namespace SigilExpr

namespace Parser

open Grammar

theorem one_add_maxHeight_le_length {es : List SourceExpr} {ts : List Token} (hne : ts ≠ [])
    (h : ∀ e ∈ es, e.height < ts.length) : 1 + maxHeight es ≤ ts.length := by
  have hpos := List.length_pos_iff.2 hne
  exact one_add_maxHeight_le (m := ts.length - 1) (by omega) fun e he => Nat.le_pred_of_lt (h e he)

mutual

/-- A phrase is no higher than the number of its tokens. -/
theorem Phrase.height_le {n : Nat} {x : Nonterminal} {ts : List Token} {e : SourceExpr} :
    Phrase n x ts e → e.height ≤ ts.length
  | .test h | .tighter _ h | .operand h | .plain h | .head h => h.height_le
  | .choice _ _ ht ha hb => by
    have ht := ht.height_le
    have ha := ha.height_le
    have hb := hb.height_le
    refine one_add_maxHeight_le_length (by simp) ?_
    simp only [List.forall_mem_cons, List.length_append, List.length_cons]
    exact ⟨by omega, by omega, by omega, by simp⟩
  | .connect _ _ _ hl hr => by
    have hl := hl.height_le
    have hr := hr.height_le
    rw [SourceExpr.height, note_join]
    refine one_add_maxHeight_le_length (by simp) ?_
    simp only [List.forall_mem_cons, List.length_append, List.length_cons]
    exact ⟨by omega, by omega, by simp⟩
  | .unary _ _ h | .member _ _ h => by
    have h := h.height_le
    refine one_add_maxHeight_le_length (by simp) ?_
    simp only [List.forall_mem_singleton, List.length_append, List.length_cons]
    omega
  | .index _ _ h hk => by
    have h := h.height_le
    have hk := hk.height_le
    refine one_add_maxHeight_le_length (by simp) ?_
    simp only [List.forall_mem_cons, List.length_append, List.length_cons]
    exact ⟨by omega, by omega, by simp⟩
  | .call _ _ h hes => by
    have h := h.height_le
    have hes := hes.height_le
    refine one_add_maxHeight_le_length (by simp) ?_
    simp only [List.forall_mem_cons, List.length_append, List.length_cons]
    exact ⟨by omega, fun e he => Nat.lt_of_le_of_lt (hes e he) (by omega)⟩
  | .leaf h => by
    rw [SourceExpr.height, h.note_eq]
    exact Nat.le_refl 1
  | .group _ _ h => by
    have h := h.height_le
    simp only [height_withNote, List.length_cons, List.length_append]
    omega
  | .array _ _ hes => one_add_maxHeight_le (by simp) hes.height_le

theorem PhraseItems.height_le {n : Nat} {ts : List Token} {es : List SourceExpr} :
    PhraseItems n ts es → ∀ e ∈ es, e.height ≤ ts.length
  | .nil => by simp
  | .last h => List.forall_mem_singleton.2 h.height_le
  | .more _ h hes => by
    have h := h.height_le
    have hes := hes.height_le
    simp only [List.forall_mem_cons, List.length_append, List.length_cons]
    exact ⟨by omega, fun e he => Nat.le_trans (hes e he) (by omega)⟩

end

/-- The parser fails over its limit, and the tokens are too many for the limit, or for the levels of
nesting that are left. -/
def Exceeds (limit n : Nat) (c : Cursor) (f : Fault) : Prop :=
  (∃ span, f = .malformed (.tooDeep limit) span) ∧ (n ≤ c.count ∨ limit < c.count)

/-- The parser fails behind a row with the property `B` over the token there, or over its limit. -/
def Fails (limit n : Nat) (B : List Lexeme → Prop) (c : Cursor) (f : Fault) : Prop :=
  (∃ ts d, c.Passes ts d ∧ B (ts.map Token.lexeme) ∧
    Blames (Due.operand.after (ts.map Token.lexeme)) d.next f) ∨ Exceeds limit n c f

section

variable {limit n m : Nat} {B B' : List Lexeme → Prop} {c d : Cursor} {f : Fault} {ts : List Token}
  {ls : List Lexeme}

theorem Exceeds.le (h : Exceeds limit m c f) (hn : n ≤ m) : Exceeds limit n c f :=
  ⟨h.1, h.2.imp_left (Nat.le_trans hn)⟩

theorem Exceeds.after (hp : c.Passes ts d) (hne : ts ≠ []) (h : Exceeds limit n d f) :
    Exceeds limit (n + 1) c f := by
  have hcount := hp.count
  have hpos := List.length_pos_iff.2 hne
  refine ⟨h.1, ?_⟩
  rcases h.2 with h | h <;> omega

namespace Fails

theorem le (h : Fails limit m B c f) (hn : n ≤ m) : Fails limit n B c f :=
  h.imp_right fun h => h.le hn

theorem imp (hB : ∀ ls, B ls → B' ls) (h : Fails limit n B c f) : Fails limit n B' c f := by
  refine h.imp_left ?_
  rintro ⟨ts, d, hp, hts, hblames⟩
  exact ⟨ts, d, hp, hB _ hts, hblames⟩

/-- The parser fails at the token where it stands. -/
theorem here (hp : c.Passes ts d) (hls : ts.map Token.lexeme = ls) (hB : B ls)
    (hblames : Blames (Due.operand.after ls) d.next f) : Fails limit n B c f := by
  subst hls
  exact .inl ⟨ts, d, hp, hB, hblames⟩

/-- The parser fails in a part that begins where an operand is due. -/
theorem after (hp : c.Passes ts d) (hls : ts.map Token.lexeme = ls) (hne : ls ≠ [])
    (hdue : Due.operand.after ls = .operand) (hB : ∀ us, B us → B' (ls ++ us))
    (h : Fails limit n B d f) : Fails limit (n + 1) B' c f := by
  subst hls
  rcases h with ⟨us, d', hp', hus, hblames⟩ | h
  · refine .inl ⟨ts ++ us, d', hp.append hp', ?_, ?_⟩
    · rw [List.map_append]
      exact hB _ hus
    · rwa [List.map_append, Due.after_append, hdue]
  · exact .inr (h.after hp (by simpa using hne))

end Fails

theorem finish_fails {es : List SourceExpr} {form : Mark → SourceExpr} {start : Nat}
    (hp : c.Passes ts d) (hle : 1 + maxHeight es ≤ ts.length)
    (h : finish limit start d es form = .error f) : Fails limit n B c f := by
  have hcount := hp.count
  unfold finish at h
  dsimp only at h
  split at h
  · cases h
    exact .inr ⟨⟨_, rfl⟩, .inr (by omega)⟩
  · cases h

theorem eq_of_require_error {l : Lexeme} {missing : Missing} (h : c.require l missing = .error f) :
    f = c.instead (.missing missing) := by
  unfold Cursor.require at h
  split at h <;> cases h
  rfl

end

section

variable {limit n : Nat}

theorem operators_fails {p : Nat} {step : Step} {c : Cursor}
    (hs : ∀ {c e d}, step c = .ok (e, d) → Reads limit n (.level (p + 1)) c e d)
    (hf : ∀ {c f}, step c = .error f → Fails limit (n + 1) (Begins (.level (p + 1))) c f) :
    ∀ {fuel : Nat} {l d f}, Reads limit n (.level p) c l d →
      operators limit p step c.start fuel l d = .error f →
        Fails limit (n + 1) (Begins (.level p)) c f := by
  intro fuel
  induction fuel with
  | zero => intro l d f hl h; cases h
  | succ fuel ih =>
    intro l d f hl h
    unfold operators at h
    split at h
    · cases h
    next op hop =>
    obtain ⟨hop, hlevel⟩ := Lexeme.connectiveAt?_eq_some_iff.1 hop
    obtain ⟨ts, hts, hlp, -⟩ := id hl
    have hpo : c.Passes (ts ++ [d.next]) d.advance :=
      hts.append (passes_of_lexeme hop op.lexeme_ne_eof)
    rcases bind_eq_error_iff.1 h with h | ⟨⟨r, d₁⟩, hr, h⟩
    · have hdue : Due.operand.after (ts.map Token.lexeme ++ [op.lexeme]) = .operand := by
        rw [Due.after_append, hlp.derives.due_eq]
        exact Due.next_connective op
      have hop' : d.next.lexeme = op.lexeme := hop
      exact ((hf h).after hpo (by simp [hop']) (by simp) hdue
        fun us hus => hus.connect op hlevel hlp.derives).le (Nat.le_succ _)
    obtain ⟨us, hus, hrp, -⟩ := hs hr
    have hp : c.Passes (ts ++ d.next :: us) d₁ := by simpa using hpo.append hus
    rcases bind_eq_error_iff.1 h with h | ⟨⟨l', d₂⟩, hfinish, hloop⟩
    · have hle := (Phrase.connect op hop hlevel hlp hrp).height_le
      rw [SourceExpr.height, note_join] at hle
      exact finish_fails hp hle h
    · obtain ⟨hh, rfl, rfl⟩ := (finish_eq_ok_of_passes hp (by simp)).1 hfinish
      rw [connect_eq_join] at hloop
      refine ih ⟨_, hp, .connect op hop hlevel hlp hrp, ?_⟩ hloop
      simpa [SourceExpr.height, mark] using hh

theorem levels_fails {step : Step}
    (hs : ∀ {c e d}, step c = .ok (e, d) → Reads limit n .unary c e d)
    (hf : ∀ {c f}, step c = .error f → Fails limit (n + 1) (Begins .unary) c f) :
    ∀ {count : Nat} {c f}, count ≤ 10 → levels limit step count c = .error f →
      Fails limit (n + 1) (Begins (.level (11 - count))) c f := by
  intro count
  induction count with
  | zero => exact fun _ h => (hf h).imp fun _ => .rule .operand
  | succ count ih =>
    intro c f hc h
    have hi : 11 - count = 10 - count + 1 := by omega
    have hp : 11 - (count + 1) = 10 - count := by omega
    rw [hp]
    have ht : ∀ {ls e}, Derives (.level (11 - count)) ls e → Derives (.level (10 - count)) ls e :=
      fun he => .tighter (by omega) (hi ▸ he)
    have hs' : ∀ {c e d}, levels limit step count c = .ok (e, d) →
        Reads limit n (.level (10 - count + 1)) c e d :=
      fun h => hi ▸ levels_reads hs (Nat.le_of_succ_le hc) h
    have hf' : ∀ {c f}, levels limit step count c = .error f →
        Fails limit (n + 1) (Begins (.level (10 - count + 1))) c f :=
      fun h => hi ▸ ih (Nat.le_of_succ_le hc) h
    rcases bind_eq_error_iff.1 h with h | ⟨⟨l, d⟩, hl, h⟩
    · exact (ih (Nat.le_of_succ_le hc) h).imp fun _ => .rule ht
    · exact operators_fails hs' hf' ((hs' hl).mono (.tighter (by omega))) h

section Deeper

variable {inner : Step}
variable (hi : ∀ {c e d}, inner c = .ok (e, d) → Reads limit n .expression c e d)
variable (hf : ∀ {c f}, inner c = .error f → Fails limit n (Begins .expression) c f)
include hi hf

theorem items_fails {close : Lexeme} {missing : Missing} (hclose : close ∈ closers) :
    ∀ {fuel : Nat} {c f}, c.count ≤ fuel → items inner close missing fuel c = .error f →
      Fails limit n (BeginsItems close) c f := by
  intro fuel
  induction fuel with
  | zero =>
    intro c f hcount h
    cases h
    have heof : c.lexeme = .eof := by
      have hnil : c.rest = [] := by
        rw [c.count_eq] at hcount
        exact List.length_eq_zero_iff.1 (Nat.le_zero.1 hcount)
      simp [Cursor.lexeme, Cursor.next, hnil]
    exact .here (.refl c) rfl (.nil hclose) (blames_instead (by simp) fun _ => by simp [heof])
  | succ fuel ih =>
    intro c f hcount h
    unfold items at h
    split at h
    · cases h
    rcases bind_eq_error_iff.1 h with h | ⟨⟨e, d⟩, he, h⟩
    · exact (hf h).imp fun _ => .last hclose
    obtain ⟨ts, hp, hph, -⟩ := hi he
    have hdue := hph.derives.due_eq
    dsimp only at h
    split at h
    · next hcomma =>
      rcases bind_eq_error_iff.1 h with h | ⟨_, -, h⟩
      · have hpc : c.Passes (ts ++ [d.next]) d.advance :=
          hp.append (passes_of_lexeme hcomma (by simp))
        have hcount' := hpc.count
        rw [List.length_append, List.length_singleton] at hcount'
        have hdue' : Due.operand.after (ts.map Token.lexeme ++ [.comma]) = .operand := by
          rw [Due.after_append, hdue]
          rfl
        have hcomma' : d.next.lexeme = .comma := hcomma
        exact ((ih (by omega) h).after hpc (by simp [hcomma']) (by simp) hdue'
          fun us hus => .more hph.derives hus).le (Nat.le_succ n)
      · cases h
    · rcases bind_eq_error_iff.1 h with h | ⟨_, -, h⟩
      · rw [eq_of_require_error h]
        exact .here hp rfl (.last hclose hph.derives.begins)
          (blames_instead (by simp) (by simp [hdue]))
      · cases h

theorem primary_fails {c : Cursor} {f : Fault} (h : primary limit inner c = .error f) :
    Fails limit (n + 1) (Begins .primary) c f := by
  have hnil : Begins .primary [] := .nil (.leaf (.ident "a" (by decide)))
  have hleaf : ∀ {form : Mark → SourceExpr}, c.lexeme ≠ .eof →
      finish limit c.start c.advance [] form = .error f →
        Fails limit (n + 1) (Begins .primary) c f :=
    fun hne h => finish_fails (.advance hne) (by simp [maxHeight]) h
  unfold primary at h
  dsimp only at h
  split at h
  · next hl => exact hleaf (by simp [hl]) h
  · next hl => exact hleaf (by simp [hl]) h
  · next hl => exact hleaf (by simp [hl]) h
  · next hl => exact hleaf (by simp [hl]) h
  · next name hl =>
    split at h
    · next hnew =>
      cases h
      subst hnew
      have hl : c.next.lexeme = .ident "new" := hl
      exact .here (.refl c) rfl hnil (.restricted (hl ▸ .new))
    · exact hleaf (by simp [hl]) h
  · next hl =>
    have hp := passes_of_lexeme hl (by simp)
    have hl : c.next.lexeme = .lparen := hl
    rcases bind_eq_error_iff.1 h with h | ⟨⟨e, d⟩, he, h⟩
    · exact (hf h).after hp (by simp [hl]) (by simp) rfl fun us hus => hus.group
    obtain ⟨ts, hts, hph, -⟩ := hi he
    rcases bind_eq_error_iff.1 h with h | ⟨_, -, h⟩
    · rw [eq_of_require_error h]
      refine .here (hp.append hts) rfl ?_ (blames_instead (by simp) ?_)
      · simpa [hl] using hph.derives.begins.group
      · simp [hl, Due.next, hph.derives.due_eq]
    · cases h
  · next hl =>
    have hp := passes_of_lexeme hl (by simp)
    have hl : c.next.lexeme = .lbracket := hl
    have hcount := hp.count
    rw [List.length_singleton] at hcount
    rcases bind_eq_error_iff.1 h with h | ⟨⟨es, d⟩, hes, h⟩
    · exact (items_fails hi hf (by simp [closers]) (by omega) h).after hp (by simp [hl]) (by simp)
        rfl fun us hus => .array hus
    · obtain ⟨ts, t, hts, -, hph, -⟩ := items_reads hi (by simp) hes
      refine finish_fails (hp.append hts) ?_ h
      exact one_add_maxHeight_le (m := ts.length) (by simp) hph.height_le
  · next hl =>
    cases h
    exact .here (.refl c) rfl hnil
      (blames_malformed (by simp) (by rw [hl]; rfl) fun _ => by simp [hl])
  · next hstring _ _ hident _ _ _ =>
    cases h
    exact .here (.refl c) rfl hnil (blames_misplaced _ fun _ => ⟨hident _, hstring⟩)

theorem suffixes_fails {c : Cursor} :
    ∀ {fuel : Nat} {l d f}, Reads limit n .chain c l d →
      suffixes limit inner c.start fuel l d = .error f →
        Fails limit (n + 1) (Begins .chain) c f := by
  intro fuel
  induction fuel with
  | zero => intro l d f hl h; cases h
  | succ fuel ih =>
    intro l d f hl h
    obtain ⟨ts, hts, hlp, -⟩ := hl
    have hdue := hlp.derives.due_eq
    unfold suffixes at h
    split at h
    · next hdot =>
      have hpd := hts.append (passes_of_lexeme hdot (by simp))
      have hdot' : d.next.lexeme = .dot := hdot
      have hls : (ts ++ [d.next]).map Token.lexeme = ts.map Token.lexeme ++ [.dot] := by
        simp [hdot']
      split at h
      · cases h
        refine .here hpd hls (.dot hlp.derives) (blames_misplaced _ ?_)
        simp [hdue, Due.next]
      · next name hname =>
        have hk := propertyName?_eq_some_iff.1 hname
        have hp : c.Passes (ts ++ [d.next, d.advance.next]) d.advance.advance := by
          simpa using hpd.append (.advance hk.ne_eof)
        have hph := Phrase.member hdot hk hlp
        rcases bind_eq_error_iff.1 h with h | ⟨⟨e, d₁⟩, hfinish, hloop⟩
        · exact finish_fails hp hph.height_le h
        · obtain ⟨hh, rfl, rfl⟩ := (finish_eq_ok_of_passes hp (by simp)).1 hfinish
          exact ih ⟨_, hp, hph, hh⟩ hloop
    · next hopen =>
      have hpo := hts.append (passes_of_lexeme hopen (by simp))
      have hopen' : d.next.lexeme = .lbracket := hopen
      have hls : (ts ++ [d.next]).map Token.lexeme = ts.map Token.lexeme ++ [.lbracket] := by
        simp [hopen']
      have hdue' : Due.operand.after (ts.map Token.lexeme ++ [.lbracket]) = .operand := by
        rw [Due.after_append, hdue]
        rfl
      rcases bind_eq_error_iff.1 h with h | ⟨⟨k, d₁⟩, hk, hrest⟩
      · exact (hf h).after hpo hls (by simp) hdue' fun us hus => .index hlp.derives hus
      obtain ⟨us, hus, hkp, -⟩ := hi hk
      rcases bind_eq_error_iff.1 hrest with h | ⟨d₂, hrequire, hrest⟩
      · rw [eq_of_require_error h]
        refine .here (hpo.append hus) (by rw [List.map_append, hls])
          (.index hlp.derives hkp.derives.begins) (blames_instead (by simp) ?_)
        rw [Due.after_append, hdue', hkp.derives.due_eq]
        simp
      obtain ⟨hclose, rfl⟩ := require_eq_ok_iff.1 hrequire
      have hp : c.Passes (ts ++ d.next :: (us ++ [d₁.next])) d₁.advance := by
        simpa using (hpo.append hus).append (passes_of_lexeme hclose (by simp))
      have hph := Phrase.index hopen hclose hlp hkp
      rcases bind_eq_error_iff.1 hrest with h | ⟨⟨e, d₂⟩, hfinish, hloop⟩
      · exact finish_fails hp hph.height_le h
      · obtain ⟨hh, rfl, rfl⟩ := (finish_eq_ok_of_passes hp (by simp)).1 hfinish
        exact ih ⟨_, hp, hph, hh⟩ hloop
    · next hopen =>
      have hpo := hts.append (passes_of_lexeme hopen (by simp))
      have hopen' : d.next.lexeme = .lparen := hopen
      have hls : (ts ++ [d.next]).map Token.lexeme = ts.map Token.lexeme ++ [.lparen] := by
        simp [hopen']
      have hdue' : Due.operand.after (ts.map Token.lexeme ++ [.lparen]) = .operand := by
        rw [Due.after_append, hdue]
        rfl
      have hcount := (passes_of_lexeme hopen (by simp)).count
      rw [List.length_singleton] at hcount
      rcases bind_eq_error_iff.1 h with h | ⟨⟨es, d₁⟩, hes, hrest⟩
      · exact (items_fails hi hf (by simp [closers]) (by omega) h).after hpo hls (by simp) hdue'
          fun us hus => .call hlp.derives hus
      obtain ⟨us, t, hus, ht, hesp, -⟩ := items_reads hi (by simp) hes
      have hp : c.Passes (ts ++ d.next :: (us ++ [t])) d₁ := by simpa using hpo.append hus
      have hph := Phrase.call hopen ht hlp hesp
      rcases bind_eq_error_iff.1 hrest with h | ⟨⟨e, d₂⟩, hfinish, hloop⟩
      · exact finish_fails hp hph.height_le h
      · obtain ⟨hh, rfl, rfl⟩ := (finish_eq_ok_of_passes hp (by simp)).1 hfinish
        exact ih ⟨_, hp, hph, hh⟩ hloop
    · cases h

theorem operand_fails {deeper : Step} {c : Cursor} {f : Fault}
    (hd : ∀ {c e d}, deeper c = .ok (e, d) → ∃ m, n = m + 1 ∧ Reads limit m .unary c e d)
    (hdf : ∀ {c f}, deeper c = .error f → Fails limit n (Begins .unary) c f)
    (h : operand limit deeper inner c = .error f) : Fails limit (n + 1) (Begins .unary) c f := by
  unfold operand at h
  split at h
  · next op hop =>
    have hop := Lexeme.unary?_eq_some_iff.1 hop
    have hpo := passes_of_lexeme hop op.lexeme_ne_eof
    have hop' : c.next.lexeme = op.lexeme := hop
    rcases bind_eq_error_iff.1 h with h | ⟨⟨e, d⟩, he, hfinish⟩
    · exact (hdf h).after hpo (by simp [hop']) (List.cons_ne_nil _ []) (Due.next_unary op)
        fun us hus => hus.unary op
    · obtain ⟨m, rfl, ts, hts, hph, -⟩ := hd he
      exact finish_fails (hpo.append hts) (Phrase.unary op hop hph).height_le hfinish
  · next hop =>
    split at h
    · next hupdate =>
      cases h
      have hnil : Begins .unary [] := .nil (.plain (.head (.leaf (.ident "a" (by decide)))))
      refine .here (.refl c) rfl hnil (blames_misplaced _ fun _ => ?_)
      rcases hupdate with hl | hl <;> simp [hl]
    · rcases bind_eq_error_iff.1 h with h | ⟨⟨e, d⟩, he, hrest⟩
      · exact (primary_fails hi hf h).imp fun _ hls => (hls.rule .head).rule .plain
      · exact (suffixes_fails hi hf ((primary_reads hi hop he).mono .head) hrest).imp
          fun _ => .rule .plain

theorem conditional_fails {test : Step} {c : Cursor} {f : Fault}
    (ht : ∀ {c e d}, test c = .ok (e, d) → Reads limit n (.level 1) c e d)
    (htf : ∀ {c f}, test c = .error f → Fails limit (n + 1) (Begins (.level 1)) c f)
    (h : conditional limit test inner c = .error f) :
    Fails limit (n + 1) (Begins .expression) c f := by
  rcases bind_eq_error_iff.1 h with h | ⟨⟨t, d⟩, hr, hrest⟩
  · exact (htf h).imp fun _ => .rule .test
  obtain ⟨ts, hts, htp, -⟩ := ht hr
  dsimp only at hrest
  split at hrest
  case isFalse => cases hrest
  case isTrue hq =>
  have hpq := hts.append (passes_of_lexeme hq (by simp))
  have hq' : d.next.lexeme = .question := hq
  have hls : (ts ++ [d.next]).map Token.lexeme = ts.map Token.lexeme ++ [.question] := by
    simp [hq']
  have hdue : Due.operand.after (ts.map Token.lexeme ++ [.question]) = .operand := by
    rw [Due.after_append, htp.derives.due_eq]
    rfl
  rcases bind_eq_error_iff.1 hrest with h | ⟨⟨a, d₁⟩, ha, hrest⟩
  · exact (hf h).after hpq hls (by simp) hdue fun us hus => .question htp.derives hus
  obtain ⟨us, hus, hap, -⟩ := hi ha
  have hpa := hpq.append hus
  rcases bind_eq_error_iff.1 hrest with h | ⟨d₂, hrequire, hrest⟩
  · rw [eq_of_require_error h]
    refine .here hpa (by rw [List.map_append, hls]) (.question htp.derives hap.derives.begins)
      (blames_instead (by simp) ?_)
    rw [Due.after_append, hdue, hap.derives.due_eq]
    simp
  obtain ⟨hcolon, rfl⟩ : d₁.lexeme = .colon ∧ d₂ = d₁.advance := require_eq_ok_iff.1 hrequire
  have hpc := hpa.append (passes_of_lexeme hcolon (by simp))
  have hcolon' : d₁.next.lexeme = .colon := hcolon
  rcases bind_eq_error_iff.1 hrest with h | ⟨⟨b, d₂⟩, hb, hfinish⟩
  · refine (hf h).after hpc rfl (by simp) ?_ fun us hus => ?_
    · simp [hq', hcolon', htp.derives.due_eq, hap.derives.due_eq, Due.next]
    · simpa [hq', hcolon'] using Begins.colon htp.derives hap.derives hus
  · obtain ⟨vs, hvs, hbp, -⟩ := hi hb
    have hp : c.Passes (ts ++ d.next :: (us ++ d₁.next :: vs)) d₂ := by
      simpa using hpc.append hvs
    exact finish_fails hp (Phrase.choice hq hcolon htp hap hbp).height_le hfinish

end Deeper

theorem descend_fails (limit depth : Nat) :
    (∀ {c f}, descend limit depth .expression c = .error f →
      Fails limit depth (Begins .expression) c f) ∧
    (∀ {c f}, descend limit depth .operand c = .error f →
      Fails limit depth (Begins .unary) c f) := by
  induction depth with
  | zero =>
    constructor
    all_goals
      intro c f h
      cases h
      exact .inr ⟨⟨_, rfl⟩, .inl (Nat.zero_le _)⟩
  | succ depth ih =>
    obtain ⟨hf, hdf⟩ := ih
    obtain ⟨hi, hd⟩ := descend_reads limit depth
    have hop : ∀ {c e d}, operand limit (descend limit depth .operand)
        (descend limit depth .expression) c = .ok (e, d) → Reads limit depth .unary c e d :=
      fun h => operand_reads hi hd h
    have hopf : ∀ {c f}, operand limit (descend limit depth .operand)
        (descend limit depth .expression) c = .error f →
        Fails limit (depth + 1) (Begins .unary) c f :=
      fun h => operand_fails hi hf hd hdf h
    constructor
    · intro c f h
      rw [descend_expression] at h
      exact conditional_fails hi hf (fun h => levels_reads hop (Nat.le_refl 10) h)
        (fun h => levels_fails hop hopf (Nat.le_refl 10) h) h
    · intro c f h
      exact hopf h

end

end Parser

open Grammar SigilExpr.Parser

theorem parse_fails {limit : Nat} {tokens : List Token} {f : Fault}
    (h : parse limit tokens = .error f) :
    Fails limit limit (Begins .expression) (.ofTokens tokens) f := by
  obtain ⟨hreads, -⟩ := descend_reads limit limit
  rcases bind_eq_error_iff.1 h with h | ⟨⟨e, c⟩, he, h⟩
  · exact (descend_fails limit limit).1 h
  obtain ⟨ts, hp, hph, -⟩ := hreads he
  have hdue : Due.operand.after (ts.map Token.lexeme) = .operand →
      c.lexeme ≠ .ident "new" ∧ ∀ s, c.lexeme ≠ .string s := by
    simp [hph.derives.due_eq]
  dsimp only at h
  split at h
  · cases h
  · next hl =>
    cases h
    exact .here hp rfl hph.derives.begins (blames_malformed (by simp) (by rw [hl]; rfl) hdue)
  · next hl =>
    cases h
    exact .here hp rfl hph.derives.begins (blames_malformed (by simp) (by rw [hl]; rfl) hdue)
  · cases h
    exact .here hp rfl hph.derives.begins (blames_misplaced _ hdue)

end SigilExpr
