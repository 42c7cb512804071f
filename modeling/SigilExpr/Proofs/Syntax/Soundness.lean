import SigilExpr.Proofs.Syntax.Climbing

/-!
# What the parser reads is a phrase

Each parser that succeeds has moved over a phrase of its own kind, none of whose nodes is higher
than the limit. The loops of the parser extend a phrase that stands before the cursor, so their
bounds on the number of rounds do not matter here.
-/

set_option autoImplicit false

namespace SigilExpr.Parser

open Grammar

variable {limit n : Nat}

/-- A phrase stands between two cursors. -/
def Reads (limit n : Nat) (x : Nonterminal) (c : Cursor) (e : SourceExpr) (d : Cursor) : Prop :=
  ∃ ts, c.Passes ts d ∧ Phrase n x ts e ∧ e.height ≤ limit

/-- A row of items and a closing token stand between two cursors. -/
def ReadsItems (limit n : Nat) (close : Lexeme) (c : Cursor) (es : List SourceExpr) (d : Cursor) :
    Prop :=
  ∃ ts t, c.Passes (ts ++ [t]) d ∧ t.lexeme = close ∧ PhraseItems n ts es ∧
    ∀ e ∈ es, e.height ≤ limit

theorem Reads.mono {m : Nat} {x y : Nonterminal} {c d : Cursor} {e : SourceExpr}
    (h : ∀ {ts}, Phrase n x ts e → Phrase m y ts e) (hr : Reads limit n x c e d) :
    Reads limit m y c e d := by
  obtain ⟨ts, hp, he, hh⟩ := hr
  exact ⟨ts, hp, h he, hh⟩

/-- A node finished after a row of tokens has the mark of that row. -/
theorem finish_eq_ok_of_passes {c d d' : Cursor} {ts : List Token} {es : List SourceExpr}
    {form : Mark → SourceExpr} {e : SourceExpr} (hp : c.Passes ts d) (hne : ts ≠ []) :
    finish limit c.start d es form = .ok (e, d') ↔
      1 + maxHeight es ≤ limit ∧ e = form (mark ts es) ∧ d' = d := by
  rw [finish_eq_ok_iff, mark, ← hp.cover hne]

theorem finish_ok {c d : Cursor} {ts : List Token} {es : List SourceExpr}
    (form : Mark → SourceExpr) (hp : c.Passes ts d) (hne : ts ≠ [])
    (hh : 1 + maxHeight es ≤ limit) :
    finish limit c.start d es form = .ok (form (mark ts es), d) :=
  (finish_eq_ok_of_passes hp hne).2 ⟨hh, rfl, rfl⟩

theorem require_eq_ok_iff {c d : Cursor} {l : Lexeme} {m : Missing} :
    c.require l m = .ok d ↔ c.lexeme = l ∧ d = c.advance := by
  unfold Cursor.require
  split
  · next h => simp [h, eq_comm]
  · next h => simp [h]

theorem passes_of_lexeme {c : Cursor} {l : Lexeme} (h : c.lexeme = l) (hl : l ≠ .eof) :
    c.Passes [c.next] c.advance :=
  .advance (h ▸ hl)

theorem connect_eq_join (op : Connective) (l r : SourceExpr) (m : Mark) :
    connect op l r m = join m op l r := by
  cases op <;> rfl

theorem operators_reads {p : Nat} {step : Step} {c : Cursor}
    (hs : ∀ {c e d}, step c = .ok (e, d) → Reads limit n (.level (p + 1)) c e d) :
    ∀ {fuel : Nat} {l d e d'}, Reads limit n (.level p) c l d →
      operators limit p step c.start fuel l d = .ok (e, d') → Reads limit n (.level p) c e d' := by
  intro fuel
  induction fuel with
  | zero =>
    intro l d e d' hl h
    simp only [operators, Except.ok.injEq, Prod.mk.injEq] at h
    obtain ⟨rfl, rfl⟩ := h
    exact hl
  | succ fuel ih =>
    intro l d e d' hl h
    unfold operators at h
    split at h
    · simp only [Except.ok.injEq, Prod.mk.injEq] at h
      obtain ⟨rfl, rfl⟩ := h
      exact hl
    · next op hop =>
      obtain ⟨hop, hlevel⟩ := Lexeme.connectiveAt?_eq_some_iff.1 hop
      simp only [bind_eq_ok_iff, Prod.exists] at h
      obtain ⟨r, d₁, hr, l', d₂, hf, h⟩ := h
      obtain ⟨ts, hts, hlp, hlh⟩ := hl
      obtain ⟨us, hus, hrp, hrh⟩ := hs hr
      have hp : c.Passes (ts ++ d.next :: us) d₁ :=
        hts.append ((passes_of_lexeme hop op.lexeme_ne_eof).append hus)
      obtain ⟨hh, rfl, rfl⟩ := (finish_eq_ok_of_passes hp (by simp)).1 hf
      refine ih ⟨_, hp, ?_, ?_⟩ h
      · rw [connect_eq_join]
        exact .connect op hop hlevel hlp hrp
      · simpa [connect_eq_join, SourceExpr.height, mark] using hh

theorem levels_reads {step : Step}
    (hs : ∀ {c e d}, step c = .ok (e, d) → Reads limit n .unary c e d) :
    ∀ {count : Nat} {c e d}, count ≤ 10 → levels limit step count c = .ok (e, d) →
      Reads limit n (.level (11 - count)) c e d := by
  intro count
  induction count with
  | zero => exact fun _ h => (hs h).mono .operand
  | succ count ih =>
    intro c e d hc h
    have hi : 11 - count = 10 - count + 1 := by omega
    simp only [levels, bind_eq_ok_iff, Prod.exists] at h
    obtain ⟨l, d₁, hl, h⟩ := h
    have hl := ih (by omega) hl
    rw [hi] at hl
    have hs' : ∀ {c e d}, levels limit step count c = .ok (e, d) →
        Reads limit n (.level (10 - count + 1)) c e d := fun h => hi ▸ ih (by omega) h
    simpa using operators_reads hs' (hl.mono (.tighter (by omega))) h

theorem leaf_reads {c d : Cursor} {form : Mark → SourceExpr} {e : SourceExpr}
    (hl : Leaf (mark [c.next] []) c.lexeme (form (mark [c.next] [])))
    (h : finish limit c.start c.advance [] form = .ok (e, d)) : Reads limit n .primary c e d := by
  have hp : c.Passes [c.next] c.advance := .advance hl.ne_eof
  obtain ⟨hh, rfl, rfl⟩ := (finish_eq_ok_of_passes hp (by simp)).1 h
  exact ⟨_, hp, .leaf hl, by rw [SourceExpr.height, hl.note_eq]; exact hh⟩

section Deeper

variable {inner : Step}
variable (hi : ∀ {c e d}, inner c = .ok (e, d) → Reads limit n .expression c e d)
include hi

theorem items_reads {close : Lexeme} {missing : Missing} (hclose : close ≠ .eof) :
    ∀ {fuel : Nat} {c es d}, items inner close missing fuel c = .ok (es, d) →
      ReadsItems limit n close c es d := by
  intro fuel
  induction fuel with
  | zero => intro c es d h; simp [items] at h
  | succ fuel ih =>
    intro c es d h
    unfold items at h
    split at h
    · next hl =>
      simp only [Except.ok.injEq, Prod.mk.injEq] at h
      obtain ⟨rfl, rfl⟩ := h
      exact ⟨[], c.next, passes_of_lexeme hl hclose, hl, .nil, by simp⟩
    · simp only [bind_eq_ok_iff, Prod.exists] at h
      obtain ⟨e, c₁, he, h⟩ := h
      obtain ⟨ts, hp, hph, hh⟩ := hi he
      split at h
      · next hcomma =>
        simp only [bind_eq_ok_iff, Prod.exists, pure, Except.pure, Except.ok.injEq,
          Prod.mk.injEq] at h
        obtain ⟨es', c₂, hes, rfl, rfl⟩ := h
        obtain ⟨us, t, hus, ht, hph', hh'⟩ := ih hes
        have hcp := passes_of_lexeme hcomma (by simp)
        refine ⟨ts ++ c₁.next :: us, t, ?_, ht, .more hcomma hph hph', ?_⟩
        · simpa using hp.append (hcp.append hus)
        · exact List.forall_mem_cons.2 ⟨hh, hh'⟩
      · simp only [bind_eq_ok_iff, require_eq_ok_iff, pure, Except.pure, Except.ok.injEq,
          Prod.mk.injEq] at h
        obtain ⟨c₂, ⟨hl, rfl⟩, rfl, rfl⟩ := h
        exact ⟨ts, c₁.next, hp.append (passes_of_lexeme hl hclose), hl, .last hph, by simpa using hh⟩

theorem primary_reads {c d : Cursor} {e : SourceExpr} (hu : c.lexeme.unary? = none)
    (h : primary limit inner c = .ok (e, d)) : Reads limit n .primary c e d := by
  unfold primary at h
  dsimp only at h
  split at h
  · next x hl => exact leaf_reads (hl ▸ Leaf.number x) h
  · next s hl => exact leaf_reads (hl ▸ Leaf.string s) h
  · next b hl => exact leaf_reads (hl ▸ Leaf.bool b) h
  · next hl => exact leaf_reads (hl ▸ Leaf.null) h
  · next name hl =>
    split at h
    · cases h
    · next hnew =>
      have hname : name ∉ reservedWords := by
        simp only [hl, Lexeme.unary?] at hu
        simp only [reservedWords, List.mem_cons, List.not_mem_nil, or_false, hnew, false_or]
        grind
      exact leaf_reads (hl ▸ Leaf.ident name hname) h
  · next hl =>
    simp only [bind_eq_ok_iff, require_eq_ok_iff, Prod.exists, pure, Except.pure, Except.ok.injEq,
      Prod.mk.injEq] at h
    obtain ⟨e', c₁, he, c₂, ⟨hr, rfl⟩, rfl, rfl⟩ := h
    obtain ⟨ts, hp, hph, hh⟩ := hi he
    have hp' : c.Passes (c.next :: (ts ++ [c₁.next])) c₁.advance :=
      (passes_of_lexeme hl (by simp)).append (hp.append (passes_of_lexeme hr (by simp)))
    refine ⟨_, hp', ?_, ?_⟩
    · rw [hp'.cover (by simp)]
      exact .group hl hr hph
    · rwa [height_withNote]
  · next hl =>
    simp only [bind_eq_ok_iff, Prod.exists] at h
    obtain ⟨es, c₁, hes, h⟩ := h
    obtain ⟨ts, t, hp, ht, hph, hh⟩ := items_reads hi (by simp) hes
    have hp' : c.Passes (c.next :: (ts ++ [t])) c₁ :=
      (passes_of_lexeme hl (by simp)).append hp
    obtain ⟨hh, rfl, rfl⟩ := (finish_eq_ok_of_passes hp' (by simp)).1 h
    exact ⟨_, hp', .array hl ht hph, hh⟩
  · cases h
  · cases h

theorem suffixes_reads {c : Cursor} :
    ∀ {fuel : Nat} {l d e d'}, Reads limit n .chain c l d →
      suffixes limit inner c.start fuel l d = .ok (e, d') → Reads limit n .chain c e d' := by
  intro fuel
  induction fuel with
  | zero =>
    intro l d e d' hl h
    simp only [suffixes, Except.ok.injEq, Prod.mk.injEq] at h
    obtain ⟨rfl, rfl⟩ := h
    exact hl
  | succ fuel ih =>
    intro l d e d' hl h
    obtain ⟨ts, hts, hlp, hlh⟩ := id hl
    unfold suffixes at h
    split at h
    · next hdot =>
      split at h
      · cases h
      · next name hname =>
        simp only [bind_eq_ok_iff, Prod.exists] at h
        obtain ⟨e₁, d₁, hf, h⟩ := h
        have hk := propertyName?_eq_some_iff.1 hname
        have hp : c.Passes (ts ++ [d.next, d.advance.next]) d.advance.advance :=
          hts.append ((passes_of_lexeme hdot (by simp)).append (.advance hk.ne_eof))
        obtain ⟨hh, rfl, rfl⟩ := (finish_eq_ok_of_passes hp (by simp)).1 hf
        exact ih ⟨_, hp, .member hdot hk hlp, hh⟩ h
    · next hopen =>
      simp only [bind_eq_ok_iff, require_eq_ok_iff, Prod.exists] at h
      obtain ⟨k, d₁, hk, d₂, ⟨hr, rfl⟩, e₁, d₃, hf, h⟩ := h
      obtain ⟨us, hus, hkp, hkh⟩ := hi hk
      have hp : c.Passes (ts ++ d.next :: (us ++ [d₁.next])) d₁.advance :=
        hts.append ((passes_of_lexeme hopen (by simp)).append
          (hus.append (passes_of_lexeme hr (by simp))))
      obtain ⟨hh, rfl, rfl⟩ := (finish_eq_ok_of_passes hp (by simp)).1 hf
      exact ih ⟨_, hp, .index hopen hr hlp hkp, hh⟩ h
    · next hopen =>
      simp only [bind_eq_ok_iff, Prod.exists] at h
      obtain ⟨es, d₁, hes, e₁, d₂, hf, h⟩ := h
      obtain ⟨us, t, hus, ht, hph, hh⟩ := items_reads hi (by simp) hes
      have hp : c.Passes (ts ++ d.next :: (us ++ [t])) d₁ :=
        hts.append ((passes_of_lexeme hopen (by simp)).append hus)
      obtain ⟨hh, rfl, rfl⟩ := (finish_eq_ok_of_passes hp (by simp)).1 hf
      exact ih ⟨_, hp, .call hopen ht hlp hph, hh⟩ h
    · simp only [Except.ok.injEq, Prod.mk.injEq] at h
      obtain ⟨rfl, rfl⟩ := h
      exact hl

theorem operand_reads {deeper : Step} {c d : Cursor} {e : SourceExpr}
    (hd : ∀ {c e d}, deeper c = .ok (e, d) → ∃ m, n = m + 1 ∧ Reads limit m .unary c e d)
    (h : operand limit deeper inner c = .ok (e, d)) : Reads limit n .unary c e d := by
  unfold operand at h
  split at h
  · next op hop =>
    simp only [bind_eq_ok_iff, Prod.exists] at h
    obtain ⟨e₁, d₁, he, hf⟩ := h
    obtain ⟨m, rfl, ts, hts, hph, -⟩ := hd he
    have hop := Lexeme.unary?_eq_some_iff.1 hop
    have hp : c.Passes (c.next :: ts) d₁ := (passes_of_lexeme hop op.lexeme_ne_eof).append hts
    obtain ⟨hh, rfl, rfl⟩ := (finish_eq_ok_of_passes hp (by simp)).1 hf
    exact ⟨_, hp, .unary op hop hph, hh⟩
  · next hop =>
    split at h
    · cases h
    · simp only [bind_eq_ok_iff, Prod.exists] at h
      obtain ⟨e₁, d₁, he, h⟩ := h
      exact (suffixes_reads hi ((primary_reads hi hop he).mono .head) h).mono .plain

theorem conditional_reads {test : Step} {c d : Cursor} {e : SourceExpr}
    (ht : ∀ {c e d}, test c = .ok (e, d) → Reads limit n (.level 1) c e d)
    (h : conditional limit test inner c = .ok (e, d)) : Reads limit (n + 1) .expression c e d := by
  unfold conditional at h
  simp only [bind_eq_ok_iff, Prod.exists] at h
  obtain ⟨t, d₁, hr, h⟩ := h
  have htest := ht hr
  split at h
  · next hq =>
    simp only [bind_eq_ok_iff, require_eq_ok_iff, Prod.exists] at h
    obtain ⟨a, d₂, ha, d₃, ⟨hc, rfl⟩, b, d₄, hb, hf⟩ := h
    obtain ⟨ts, hts, htp, -⟩ := htest
    obtain ⟨us, hus, hap, -⟩ := hi ha
    obtain ⟨vs, hvs, hbp, -⟩ := hi hb
    have hp : c.Passes (ts ++ d₁.next :: (us ++ d₂.next :: vs)) d₄ :=
      hts.append ((passes_of_lexeme hq (by simp)).append
        (hus.append ((passes_of_lexeme hc (by simp)).append hvs)))
    obtain ⟨hh, rfl, rfl⟩ := (finish_eq_ok_of_passes hp (by simp)).1 hf
    exact ⟨_, hp, .choice hq hc htp hap hbp, hh⟩
  · simp only [pure, Except.pure, Except.ok.injEq, Prod.mk.injEq] at h
    obtain ⟨rfl, rfl⟩ := h
    exact htest.mono .test

end Deeper

theorem Reads.count_le {x : Nonterminal} {c d : Cursor} {e : SourceExpr}
    (h : Reads limit n x c e d) : d.count ≤ c.count := by
  obtain ⟨ts, hp, -, -⟩ := h
  rw [hp.count]
  exact Nat.le_add_left _ _

/-- Where operands are read whole, climbing goes down the ten levels of the grammar. -/
theorem binary_reads {step : Step} {c d : Cursor} {e : SourceExpr}
    (hs : ∀ {c e d}, step c = .ok (e, d) → Reads limit n .unary c e d)
    (h : binary limit step 1 c = .ok (e, d)) : Reads limit n (.level 1) c e d := by
  have hforward : Forward step := fun _ _ _ h => (hs h).count_le
  rw [binary_eq_levels hforward (Nat.le_refl 10)] at h
  exact levels_reads hs (Nat.le_refl 10) h

theorem descend_reads (limit depth : Nat) :
    (∀ {c e d}, descend limit depth .expression c = .ok (e, d) →
      Reads limit depth .expression c e d) ∧
    (∀ {c e d}, descend limit depth .operand c = .ok (e, d) →
      ∃ m, depth = m + 1 ∧ Reads limit m .unary c e d) := by
  induction depth with
  | zero => exact ⟨fun h => by simp [descend] at h, fun h => by simp [descend] at h⟩
  | succ depth ih =>
    obtain ⟨hi, hd⟩ := ih
    have hop : ∀ {c e d}, operand limit (descend limit depth .operand)
        (descend limit depth .expression) c = .ok (e, d) → Reads limit depth .unary c e d :=
      fun h => operand_reads hi hd h
    constructor
    · intro c e d h
      exact conditional_reads hi (fun h => binary_reads hop h) h
    · intro c e d h
      exact ⟨depth, rfl, hop h⟩

/-- The parser of operands with `n` levels of nesting left inside them. -/
abbrev operandWithin (limit n : Nat) : Step :=
  operand limit (descend limit n .operand) (descend limit n .expression)

theorem operandWithin_reads {c d : Cursor} {e : SourceExpr}
    (h : operandWithin limit n c = .ok (e, d)) : Reads limit n .unary c e d := by
  obtain ⟨hi, hd⟩ := descend_reads limit n
  exact operand_reads hi hd h

/-- The parser of expressions goes down the ten levels of the grammar. -/
theorem descend_expression (limit n : Nat) (c : Cursor) :
    descend limit (n + 1) .expression c =
      conditional limit (levels limit (operandWithin limit n) 10)
        (descend limit n .expression) c := by
  have hforward : Forward (operandWithin limit n) := fun _ _ _ h => (operandWithin_reads h).count_le
  rw [← binary_eq_levels hforward (Nat.le_refl 10)]
  rfl

end SigilExpr.Parser
