import SigilExpr.Proofs.Syntax.Soundness

/-!
# Phrases are what the parser reads

A phrase is read whole wherever it stands, provided that no token after it could go on with it, that
its nesting is within the depth that is left, and that it is no higher than the limit.

The rules of the grammar recurse on the left, the parser goes on in loops. So what is shown of a
phrase of a level, or of a chain, is that the parser comes to the state of its loop in which the
phrase has been read; the rule for one operator is then one round of the loop.
-/

set_option autoImplicit false

namespace SigilExpr.Parser

open Grammar

/-- After a phrase the lexeme begins no suffix, and no operator that binds tighter than `p`. -/
structure Ends (p : Nat) (l : Lexeme) : Prop where
  dot : l ≠ .dot
  lbracket : l ≠ .lbracket
  lparen : l ≠ .lparen
  level : ∀ op : Connective, l = op.lexeme → op.level ≤ p

theorem Ends.mono {p q : Nat} {l : Lexeme} (h : Ends p l) (hpq : p ≤ q) : Ends q l :=
  ⟨h.dot, h.lbracket, h.lparen, fun op ho => Nat.le_trans (h.level op ho) hpq⟩

theorem ends_lexeme (op : Connective) : Ends op.level op.lexeme := by
  refine ⟨op.lexeme_ne rfl, op.lexeme_ne rfl, op.lexeme_ne rfl, fun op' h => ?_⟩
  obtain rfl := Connective.lexeme_injective h
  exact Nat.le_refl _

theorem ends_of_mem {l : Lexeme}
    (h : l ∈ [Lexeme.rparen, .rbracket, .comma, .colon, .question, .eof]) (p : Nat) : Ends p l := by
  have hn : l.connective? = none ∧ l ≠ .dot ∧ l ≠ .lbracket ∧ l ≠ .lparen := by
    simp only [List.mem_cons, List.not_mem_nil, or_false] at h
    rcases h with rfl | rfl | rfl | rfl | rfl | rfl <;> simp [Lexeme.connective?]
  exact ⟨hn.2.1, hn.2.2.1, hn.2.2.2, fun op ho => absurd ho.symm (op.lexeme_ne hn.1)⟩

section

variable {limit n p : Nat} {c d : Cursor} {e : SourceExpr} {ts us : List Token} {t : Token}

theorem operators_stop {q : Nat} {step : Step} {start fuel : Nat} (h : Ends p c.lexeme)
    (hpq : p < q) : operators limit q step start fuel e c = .ok (e, c) := by
  have hnone : c.lexeme.connectiveAt? q = none := by
    refine Lexeme.connectiveAt?_eq_none_iff.2 fun op hop => ?_
    exact Nat.ne_of_lt (Nat.lt_of_le_of_lt (h.level op (Lexeme.connective?_eq_some_iff.1 hop)) hpq)
  exact operators_of_none hnone

theorem suffixes_stop {inner : Step} {start fuel : Nat} (h : Ends p c.lexeme) :
    suffixes limit inner start fuel e c = .ok (e, c) := by
  cases fuel with
  | zero => rfl
  | succ fuel =>
    unfold suffixes
    split
    · next hl => exact absurd hl h.dot
    · next hl => exact absurd hl h.lbracket
    · next hl => exact absurd hl h.lparen
    · rfl

theorem operators_step {step : Step} {start fuel : Nat} {op : Connective} {l r : SourceExpr}
    {m : Mark} (ho : c.lexeme = op.lexeme) (hr : step c.advance = .ok (r, d))
    (hf : finish limit start d [l, r] (connect op l r) = .ok (connect op l r m, d)) :
    operators limit op.level step start (fuel + 1) l c =
      operators limit op.level step start fuel (connect op l r m) d := by
  rw [operators_round (Lexeme.connectiveAt?_eq_some_iff.2 ⟨ho, rfl⟩), attach, hr]
  simp only [bind, Except.bind]
  rw [hf]

end

/-- What the parser does at a phrase; for levels and chains, it comes to the rest of the loop. -/
def Completes (limit n : Nat) : Nonterminal → List Token → SourceExpr → Prop
  | .expression, ts, e => ∀ ⦃c d⦄, c.Passes ts d → Ends 0 d.lexeme → d.lexeme ≠ .question →
      descend limit n .expression c = .ok (e, d)
  | .level p, ts, e => ∀ ⦃c d⦄, c.Passes ts d → Ends p d.lexeme → ∃ fuel, d.count ≤ fuel ∧
      levels limit (operandWithin limit n) (11 - p) c =
        operators limit p (levels limit (operandWithin limit n) (10 - p)) c.start fuel e d
  | .unary, ts, e => ∀ ⦃c d⦄, c.Passes ts d → Ends 10 d.lexeme →
      operandWithin limit n c = .ok (e, d)
  | .chain, ts, e => ∀ ⦃c d⦄, c.Passes ts d → ∃ fuel, d.count ≤ fuel ∧
      operandWithin limit n c = suffixes limit (descend limit n .expression) c.start fuel e d
  | .primary, ts, e => ∀ ⦃c d⦄, c.Passes ts d → c.lexeme.unary? = none ∧
      ¬ (c.lexeme = .plusPlus ∨ c.lexeme = .minusMinus) ∧
      primary limit (descend limit n .expression) c = .ok (e, d)

section

variable {limit n p : Nat} {c d : Cursor} {e : SourceExpr} {ts us : List Token} {t : Token}

theorem Completes.level_eq (h : Completes limit n (.level (p + 1)) ts e) (hp : c.Passes ts d)
    (he : Ends p d.lexeme) :
    levels limit (operandWithin limit n) (10 - p) c = .ok (e, d) := by
  obtain ⟨fuel, -, h⟩ := h hp (he.mono (Nat.le_succ p))
  rw [Nat.add_sub_add_right 10 1 p, operators_stop he (Nat.lt_succ_self p)] at h
  exact h

theorem Completes.test {t : SourceExpr} (h : Completes limit n (.level 1) ts t) :
    Completes limit (n + 1) .expression ts t := by
  intro c d hp he hq
  have ht : levels limit (operandWithin limit n) 10 c = .ok (t, d) := h.level_eq hp he
  rw [descend_expression, conditional, ht]
  simp [bind, Except.bind, pure, Except.pure, hq]

theorem Completes.choice {vs : List Token} {t a b : SourceExpr} {q o : Token}
    (hq : q.lexeme = .question) (ho : o.lexeme = .colon)
    (ht : Completes limit n (.level 1) ts t) (ha : Completes limit n .expression us a)
    (hb : Completes limit n .expression vs b) (hh : 1 + maxHeight [t, a, b] ≤ limit) :
    Completes limit (n + 1) .expression (ts ++ q :: (us ++ o :: vs))
      (.conditional (mark (ts ++ q :: (us ++ o :: vs)) [t, a, b]) t a b) := by
  intro c d hp he hd
  obtain ⟨c₁, hts, hp₁⟩ := hp.split
  obtain ⟨hq₁, hp₁⟩ := hp₁.cons
  obtain ⟨c₂, hus, hp₂⟩ := hp₁.split
  obtain ⟨ho₂, hvs⟩ := hp₂.cons
  have hl₁ : c₁.lexeme = .question := by rw [Cursor.lexeme, hq₁, hq]
  have hl₂ : c₂.lexeme = .colon := by rw [Cursor.lexeme, ho₂, ho]
  have e₁ : Ends 0 c₁.lexeme := ends_of_mem (by simp [hl₁]) 0
  have e₂ : Ends 0 c₂.lexeme := ends_of_mem (by simp [hl₂]) 0
  have ht : levels limit (operandWithin limit n) 10 c = .ok (t, c₁) := ht.level_eq hts e₁
  rw [descend_expression, conditional, ht]
  simp only [bind, Except.bind, if_pos hl₁]
  rw [ha hus e₂ (by simp [hl₂])]
  simp only [require_eq_ok_iff.2 ⟨hl₂, rfl⟩]
  rw [hb hvs he hd]
  exact finish_ok _ hp (by simp) hh

theorem Completes.tighter (hp : p ≤ 10) (h : Completes limit n (.level (p + 1)) ts e) :
    Completes limit n (.level p) ts e := by
  intro c d hts he
  refine ⟨c.count, by rw [hts.count]; exact Nat.le_add_left _ _, ?_⟩
  have hlevel : 11 - p = 10 - p + 1 := by omega
  have hp' : 10 - (10 - p) = p := by omega
  rw [hlevel, levels, h.level_eq hts he, hp']
  rfl

theorem Completes.connect {l r : SourceExpr} {o : Token} {op : Connective}
    (ho : o.lexeme = op.lexeme) (hlevel : op.level = p) (hl : Completes limit n (.level p) ts l)
    (hr : Completes limit n (.level (p + 1)) us r) (hh : 1 + maxHeight [l, r] ≤ limit) :
    Completes limit n (.level p) (ts ++ o :: us) (join (mark (ts ++ o :: us) [l, r]) op l r) := by
  subst hlevel
  intro c d hp he
  obtain ⟨c₁, hts, hp₁⟩ := hp.split
  have hcount := hp₁.count
  obtain ⟨ho₁, hus⟩ := hp₁.cons
  have hl₁ : c₁.lexeme = op.lexeme := by rw [Cursor.lexeme, ho₁, ho]
  obtain ⟨fuel, hfuel, heq⟩ := hl hts (hl₁ ▸ ends_lexeme op)
  rw [List.length_cons] at hcount
  obtain ⟨fuel, rfl⟩ : ∃ k, fuel = k + 1 := ⟨fuel - 1, by omega⟩
  refine ⟨fuel, by omega, ?_⟩
  rw [heq, ← connect_eq_join]
  exact operators_step hl₁ (hr.level_eq hus he) (finish_ok _ hp (by simp) hh)

theorem Completes.operand (h : Completes limit n .unary ts e) :
    Completes limit n (.level 11) ts e := by
  intro c d hp he
  have he : Ends 10 d.lexeme := ⟨he.dot, he.lbracket, he.lparen, fun op _ => op.level_le⟩
  refine ⟨d.count, Nat.le_refl _, ?_⟩
  rw [operators_stop he (by omega)]
  exact h hp he

theorem Completes.unary {o : Token} {op : UnaryOp} (ho : o.lexeme = op.lexeme)
    (h : Completes limit n .unary ts e) (hh : 1 + maxHeight [e] ≤ limit) :
    Completes limit (n + 1) .unary (o :: ts) (.unary (mark (o :: ts) [e]) op e) := by
  intro c d hp he
  obtain ⟨ho₁, hts⟩ := hp.cons
  have hu : c.lexeme.unary? = some op := by
    rw [Cursor.lexeme, ho₁]
    exact Lexeme.unary?_eq_some_iff.2 ho
  have hd : descend limit (n + 1) .operand c.advance = .ok (e, d) := h hts he
  rw [operandWithin, Parser.operand, hu]
  simp only [bind, Except.bind, hd]
  exact finish_ok _ hp (by simp) hh

theorem Completes.plain (h : Completes limit n .chain ts e) : Completes limit n .unary ts e := by
  intro c d hp he
  obtain ⟨fuel, -, heq⟩ := h hp
  rw [heq, suffixes_stop he]

theorem Completes.head (h : Completes limit n .primary ts e) : Completes limit n .chain ts e := by
  intro c d hp
  obtain ⟨hu, hne, heq⟩ := h hp
  refine ⟨d.count, Nat.le_refl _, ?_⟩
  rw [operandWithin, Parser.operand, hu]
  simp only [if_neg hne, bind, Except.bind, heq]

theorem Completes.extend {e' : SourceExpr} (h : Completes limit n .chain ts e) (hus : us ≠ [])
    (round : ∀ {c d d' : Cursor}, c.Passes ts d → d.Passes us d' → ∀ fuel,
      suffixes limit (descend limit n .expression) c.start (fuel + 1) e d =
        suffixes limit (descend limit n .expression) c.start fuel e' d') :
    Completes limit n .chain (ts ++ us) e' := by
  intro c d hp
  obtain ⟨c₁, hts, hp₁⟩ := hp.split
  obtain ⟨fuel, hfuel, heq⟩ := h hts
  have hcount := hp₁.count
  have hpos := List.length_pos_iff.2 hus
  obtain ⟨fuel, rfl⟩ : ∃ k, fuel = k + 1 := ⟨fuel - 1, by omega⟩
  exact ⟨fuel, by omega, by rw [heq, round hts hp₁]⟩

theorem Completes.member {o k : Token} {name : String} (ho : o.lexeme = .dot)
    (hk : PropertyName k.lexeme name) (h : Completes limit n .chain ts e)
    (hh : 1 + maxHeight [e] ≤ limit) :
    Completes limit n .chain (ts ++ [o, k]) (.member (mark (ts ++ [o, k]) [e]) e name) := by
  refine h.extend (by simp) ?_
  intro c d d' hts hus fuel
  obtain ⟨ho₁, hks⟩ := hus.cons
  obtain ⟨hk₁, rfl⟩ := hks.single
  have hl : d.lexeme = .dot := by rw [Cursor.lexeme, ho₁, ho]
  have hn : d.advance.lexeme.propertyName? = some name := by
    rw [Cursor.lexeme, hk₁]
    exact propertyName?_eq_some_iff.2 hk
  have hf := finish_ok (.member · e name) (hts.append hus) (by simp) hh
  rw [suffixes, hl]
  dsimp only
  rw [hn]
  simp only [bind, Except.bind, hf]

theorem Completes.index {o q : Token} {k : SourceExpr} (ho : o.lexeme = .lbracket)
    (hq : q.lexeme = .rbracket) (h : Completes limit n .chain ts e)
    (hk : Completes limit n .expression us k) (hh : 1 + maxHeight [e, k] ≤ limit) :
    Completes limit n .chain (ts ++ o :: (us ++ [q]))
      (.index (mark (ts ++ o :: (us ++ [q])) [e, k]) e k) := by
  refine h.extend (by simp) ?_
  intro c d d' hts hus fuel
  have hf := finish_ok (.index · e k) (hts.append hus) (by simp) hh
  obtain ⟨ho₁, hus⟩ := hus.cons
  obtain ⟨c₂, hk₂, hqs⟩ := hus.split
  obtain ⟨hq₂, rfl⟩ := hqs.single
  have hl : d.lexeme = .lbracket := by rw [Cursor.lexeme, ho₁, ho]
  have hl₂ : c₂.lexeme = .rbracket := by rw [Cursor.lexeme, hq₂, hq]
  have hkey := hk hk₂ (ends_of_mem (by simp [hl₂]) 0)
    (by simp [hl₂])
  rw [suffixes, hl]
  simp only [bind, Except.bind, hkey, require_eq_ok_iff.2 ⟨hl₂, rfl⟩, hf]

theorem Completes.leaf (h : Leaf (mark [t] []) t.lexeme e) (hh : 1 + maxHeight [] ≤ limit) :
    Completes limit n .primary [t] e := by
  intro c d hp
  obtain ⟨ht, rfl⟩ := hp.single
  have hl : c.lexeme = t.lexeme := by rw [Cursor.lexeme, ht]
  rw [← hl] at h
  generalize hx : c.lexeme = x at h
  unfold primary
  simp only [hx, finish_ok _ hp (by simp) hh]
  cases h with
  | number x => simp [Lexeme.unary?]
  | string s => simp [Lexeme.unary?]
  | bool b => simp [Lexeme.unary?]
  | null => simp [Lexeme.unary?]
  | ident name hname =>
    simp only [reservedWords, List.mem_cons, List.not_mem_nil, or_false, not_or] at hname
    simp [Lexeme.unary?, hname]

theorem Completes.group {o q : Token} (ho : o.lexeme = .lparen) (hq : q.lexeme = .rparen)
    (h : Completes limit n .expression ts e) :
    Completes limit n .primary (o :: (ts ++ [q]))
      (e.withNote ⟨Token.cover (o :: (ts ++ [q])), e.height⟩) := by
  intro c d hp
  obtain ⟨ho₁, hrest⟩ := hp.cons
  obtain ⟨c₂, hts, hqs⟩ := hrest.split
  obtain ⟨hq₂, rfl⟩ := hqs.single
  have hl : c.lexeme = .lparen := by rw [Cursor.lexeme, ho₁, ho]
  have hl₂ : c₂.lexeme = .rparen := by rw [Cursor.lexeme, hq₂, hq]
  have hinner := h hts (ends_of_mem (by simp [hl₂]) 0)
    (by simp [hl₂])
  refine ⟨by rw [hl]; rfl, by simp [hl], ?_⟩
  unfold primary
  simp only [hl, bind, Except.bind, hinner, require_eq_ok_iff.2 ⟨hl₂, rfl⟩, pure, Except.pure,
    hp.cover (by simp)]

/-- What the parser does at a row of items and a closing token, given enough rounds. -/
def CompletesItems (limit n : Nat) (ts : List Token) (es : List SourceExpr) : Prop :=
  ∀ ⦃close missing c d t fuel⦄, t.lexeme = close → close = .rparen ∨ close = .rbracket →
    c.Passes (ts ++ [t]) d → c.count < fuel →
    items (descend limit n .expression) close missing fuel c = .ok (es, d)

theorem Completes.call {o q : Token} {es : List SourceExpr} (ho : o.lexeme = .lparen)
    (hq : q.lexeme = .rparen) (h : Completes limit n .chain ts e)
    (hes : CompletesItems limit n us es) (hh : 1 + maxHeight (e :: es) ≤ limit) :
    Completes limit n .chain (ts ++ o :: (us ++ [q]))
      (.call (mark (ts ++ o :: (us ++ [q])) (e :: es)) e es) := by
  refine h.extend (by simp) ?_
  intro c d d' hts hus fuel
  have hf := finish_ok (.call · e es) (hts.append hus) (by simp) hh
  have hcount := hus.count
  obtain ⟨ho₁, hus⟩ := hus.cons
  have hcount' := hus.count
  have hl : d.lexeme = .lparen := by rw [Cursor.lexeme, ho₁, ho]
  rw [List.length_cons] at hcount
  have hitems : items (descend limit n .expression) .rparen .argumentsEnd d.count d.advance =
      .ok (es, d') := hes hq (.inl rfl) hus (by omega)
  rw [suffixes, hl]
  simp only [bind, Except.bind, hitems, hf]

theorem Completes.array {o q : Token} {es : List SourceExpr} (ho : o.lexeme = .lbracket)
    (hq : q.lexeme = .rbracket) (hes : CompletesItems limit n ts es)
    (hh : 1 + maxHeight es ≤ limit) :
    Completes limit n .primary (o :: (ts ++ [q])) (.array (mark (o :: (ts ++ [q])) es) es) := by
  intro c d hp
  have hf := finish_ok (.array · es) hp (by simp) hh
  have hcount := hp.count
  obtain ⟨ho₁, hts⟩ := hp.cons
  have hcount' := hts.count
  have hl : c.lexeme = .lbracket := by rw [Cursor.lexeme, ho₁, ho]
  rw [List.length_cons] at hcount
  have hitems : items (descend limit n .expression) .rbracket .arrayEnd c.count c.advance =
      .ok (es, d) := hes hq (.inr rfl) hts (by omega)
  refine ⟨by rw [hl]; rfl, by simp [hl], ?_⟩
  unfold primary
  simp only [hl, bind, Except.bind, hitems, hf]

theorem CompletesItems.nil : CompletesItems limit n [] [] := by
  intro close missing c d t fuel ht _ hp hfuel
  obtain ⟨ht₁, rfl⟩ := hp.single
  obtain ⟨fuel, rfl⟩ : ∃ k, fuel = k + 1 := ⟨fuel - 1, by omega⟩
  have hl : c.lexeme = close := by rw [Cursor.lexeme, ht₁, ht]
  simp [items, hl]

theorem lexeme_ne_close {close : Lexeme} (hp : c.Passes ts d) (h : Phrase n .expression ts e)
    (hclose : close = .rparen ∨ close = .rbracket) : c.lexeme ≠ close := by
  obtain ⟨t, us, rfl, hne⟩ := h.exists_first
  have hl : c.lexeme = t.lexeme := by rw [Cursor.lexeme, hp.cons.1]
  rcases hclose with rfl | rfl
  · exact hl ▸ hne.1
  · exact hl ▸ hne.2

theorem CompletesItems.last (hph : Phrase n .expression ts e)
    (h : Completes limit n .expression ts e) : CompletesItems limit n ts [e] := by
  intro close missing c d t fuel ht hclose hp hfuel
  obtain ⟨c₁, hts, hp₁⟩ := hp.split
  obtain ⟨ht₁, rfl⟩ := hp₁.single
  obtain ⟨fuel, rfl⟩ : ∃ k, fuel = k + 1 := ⟨fuel - 1, by omega⟩
  have hl : c₁.lexeme = close := by rw [Cursor.lexeme, ht₁, ht]
  have hfirst := lexeme_ne_close hts hph hclose
  have hnc : c₁.lexeme ≠ .comma := by rcases hclose with rfl | rfl <;> simp [hl]
  have he : descend limit n .expression c = .ok (e, c₁) := by
    rcases hclose with rfl | rfl
    · exact h hts (ends_of_mem (by simp [hl]) 0) (by simp [hl])
    · exact h hts (ends_of_mem (by simp [hl]) 0) (by simp [hl])
  rw [items, if_neg hfirst]
  simp only [bind, Except.bind, he, if_neg hnc, require_eq_ok_iff.2 ⟨hl, rfl⟩, pure, Except.pure]

theorem CompletesItems.more {es : List SourceExpr} {q : Token} (hq : q.lexeme = .comma)
    (hph : Phrase n .expression ts e) (h : Completes limit n .expression ts e)
    (hes : CompletesItems limit n us es) : CompletesItems limit n (ts ++ q :: us) (e :: es) := by
  intro close missing c d t fuel ht hclose hp hfuel
  rw [List.append_assoc, List.cons_append] at hp
  obtain ⟨c₁, hts, hp₁⟩ := hp.split
  have hcount := hp.count
  obtain ⟨hq₁, hus⟩ := hp₁.cons
  have hcount' := hus.count
  obtain ⟨fuel, rfl⟩ : ∃ k, fuel = k + 1 := ⟨fuel - 1, by omega⟩
  have hl : c₁.lexeme = .comma := by rw [Cursor.lexeme, hq₁, hq]
  have hfirst := lexeme_ne_close hts hph hclose
  have he := h hts (ends_of_mem (by simp [hl]) 0) (by simp [hl])
  simp only [List.length_append, List.length_cons] at hcount hcount'
  have hitems : items (descend limit n .expression) close missing fuel c₁.advance = .ok (es, d) :=
    hes ht hclose hus (by omega)
  rw [items, if_neg hfirst]
  simp only [bind, Except.bind, he, if_pos hl, hitems, pure, Except.pure]

end

mutual

theorem Phrase.completes {limit n : Nat} {x : Nonterminal} {ts : List Token} {e : SourceExpr} :
    Phrase n x ts e → e.height ≤ limit → Completes limit n x ts e
  | .test h, hh => (h.completes hh).test
  | .choice hq ho ht ha hb, hh =>
    .choice hq ho (ht.completes (height_le_of_mem hh (by simp)))
      (ha.completes (height_le_of_mem hh (by simp))) (hb.completes (height_le_of_mem hh (by simp)))
      hh
  | .tighter hp h, hh => (h.completes hh).tighter hp
  | .connect op ho hlevel hl hr, hh => by
    rw [SourceExpr.height, note_join] at hh
    exact .connect ho hlevel (hl.completes (height_le_of_mem hh (by simp)))
      (hr.completes (height_le_of_mem hh (by simp))) hh
  | .operand h, hh => (h.completes hh).operand
  | .unary op ho h, hh => .unary ho (h.completes (height_le_of_mem hh (by simp))) hh
  | .plain h, hh => (h.completes hh).plain
  | .head h, hh => (h.completes hh).head
  | .member ho hk h, hh => (h.completes (height_le_of_mem hh (by simp))).member ho hk hh
  | .index ho hq h hk, hh =>
    (h.completes (height_le_of_mem hh (by simp))).index ho hq
      (hk.completes (height_le_of_mem hh (by simp))) hh
  | .call ho hq h hes, hh =>
    (h.completes (height_le_of_mem hh (by simp))).call ho hq
      (hes.completes fun e he => height_le_of_mem hh (by simp [he])) hh
  | .leaf h, hh => .leaf h (by rwa [SourceExpr.height, h.note_eq] at hh)
  | .group ho hq h, hh => .group ho hq (h.completes (by rwa [height_withNote] at hh))
  | .array ho hq hes, hh => .array ho hq (hes.completes fun e he => height_le_of_mem hh he) hh

theorem PhraseItems.completes {limit n : Nat} {ts : List Token} {es : List SourceExpr} :
    PhraseItems n ts es → (∀ e ∈ es, e.height ≤ limit) → CompletesItems limit n ts es
  | .nil, _ => .nil
  | .last h, hh => .last h (h.completes (hh _ (by simp)))
  | .more hq h hes, hh =>
    .more hq h (h.completes (hh _ (by simp))) (hes.completes fun e he => hh e (by simp [he]))

end

end SigilExpr.Parser
