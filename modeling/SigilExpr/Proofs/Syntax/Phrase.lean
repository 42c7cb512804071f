import SigilExpr.Proofs.Syntax.Grammar

/-!
# Phrases of tokens

A phrase is a row of tokens that spells an expression with its marks, within a bound on the nesting.
Its rules are those of the grammar; they also say what is noted at each node, and they count one
level of nesting for an expression and one for the operand of an operator before it.

`Cursor.Passes` is how a cursor moves over tokens. It does NOT say that a phrase was read there.
-/

set_option autoImplicit false

namespace SigilExpr

theorem bind_eq_ok_iff {ε α β : Type} {x : Except ε α} {f : α → Except ε β} {b : β} :
    x >>= f = .ok b ↔ ∃ a, x = .ok a ∧ f a = .ok b := by
  cases x <;> simp [bind, Except.bind]

theorem bind_eq_error_iff {ε α β : Type} {x : Except ε α} {f : α → Except ε β} {e : ε} :
    x >>= f = .error e ↔ x = .error e ∨ ∃ a, x = .ok a ∧ f a = .error e := by
  cases x <;> simp [bind, Except.bind]

/-- The tokens `ts` lead from one cursor to another. -/
structure Cursor.Passes (c : Cursor) (ts : List Token) (d : Cursor) : Prop where
  rest : c.rest = ts ++ d.rest
  previous : d.previous = (ts.getLast?.map Token.span).getD c.previous

namespace Cursor

variable {c d e : Cursor} {t : Token} {ts us : List Token}

theorem ext (hp : c.previous = d.previous) (hr : c.rest = d.rest) : c = d := by
  obtain ⟨p, r, n, hn⟩ := c
  obtain ⟨q, s, m, hm⟩ := d
  subst hn
  subst hm
  cases hp
  cases hr
  rfl

theorem next_of_rest (h : c.rest = t :: ts) : c.next = t := by simp [next, h]

theorem exists_of_lexeme_ne (h : c.lexeme ≠ .eof) : c.rest = c.next :: c.advance.rest := by
  cases hr : c.rest with
  | nil => exact absurd (by simp [lexeme, next, hr]) h
  | cons t ts => simp [next, advance, hr]

namespace Passes

theorem refl (c : Cursor) : c.Passes [] c := ⟨rfl, rfl⟩

theorem eq_of_nil (h : c.Passes [] d) : c = d :=
  ext (by simpa using h.previous.symm) (by simpa using h.rest)

theorem append (h : c.Passes ts d) (h' : d.Passes us e) : c.Passes (ts ++ us) e := by
  refine ⟨by rw [h.rest, h'.rest, List.append_assoc], ?_⟩
  rw [h'.previous, h.previous, List.getLast?_append]
  cases us.getLast? <;> simp

theorem split (h : c.Passes (ts ++ us) e) : ∃ d, c.Passes ts d ∧ d.Passes us e := by
  let d : Cursor := ⟨(ts.getLast?.map Token.span).getD c.previous, us ++ e.rest, _, rfl⟩
  refine ⟨d, ⟨by rw [h.rest, List.append_assoc], rfl⟩, ⟨rfl, ?_⟩⟩
  rw [h.previous, List.getLast?_append]
  cases us.getLast? <;> simp [d]

theorem advance (h : c.lexeme ≠ .eof) : c.Passes [c.next] c.advance :=
  ⟨exists_of_lexeme_ne h, rfl⟩

/-- A cursor whose first token is known moves over it by one advance. -/
theorem cons (h : c.Passes (t :: ts) d) : c.next = t ∧ c.advance.Passes ts d := by
  have hn : c.next = t := next_of_rest h.rest
  refine ⟨hn, by simp [Cursor.advance, h.rest], ?_⟩
  rw [h.previous, Cursor.advance, hn, List.getLast?_cons]
  cases ts.getLast? <;> simp

theorem single (h : c.Passes [t] d) : c.next = t ∧ c.advance = d :=
  ⟨h.cons.1, h.cons.2.eq_of_nil⟩

theorem count (h : c.Passes ts d) : c.count = ts.length + d.count := by
  rw [c.count_eq, d.count_eq, h.rest, List.length_append]

end Passes

end Cursor

/-- The bytes of a row of tokens, from the first to the last. -/
def Token.cover (ts : List Token) : Span where
  start := (ts.head?.map fun t => t.span.start).getD 0
  stop := (ts.getLast?.map fun t => t.span.stop).getD 0

theorem Cursor.Passes.cover {c d : Cursor} {ts : List Token} (h : c.Passes ts d) (hne : ts ≠ []) :
    (⟨c.start, d.previous.stop⟩ : Span) = Token.cover ts := by
  obtain ⟨t, us, rfl⟩ := List.exists_cons_of_ne_nil hne
  have hl : (t :: us).getLast? = some ((t :: us).getLast hne) := List.getLast?_eq_some_getLast hne
  rw [Token.cover, h.previous, Cursor.start, h.cons.1, hl]
  rfl

namespace Parser

open Grammar

theorem maxHeight_le_iff {es : List SourceExpr} {n : Nat} :
    maxHeight es ≤ n ↔ ∀ e ∈ es, e.height ≤ n := by
  have go : ∀ (es : List SourceExpr) (m : Nat),
      es.foldl (fun h e => max h e.height) m ≤ n ↔ m ≤ n ∧ ∀ e ∈ es, e.height ≤ n := by
    intro es
    induction es with
    | nil => simp
    | cons e es ih =>
      intro m
      rw [List.foldl_cons, ih, Nat.max_le, List.forall_mem_cons, and_assoc]
  simpa [maxHeight] using go es 0

theorem height_le_of_mem {es : List SourceExpr} {e : SourceExpr} {n : Nat}
    (h : 1 + maxHeight es ≤ n) (he : e ∈ es) : e.height ≤ n :=
  maxHeight_le_iff.1 (by omega) e he

theorem finish_eq_ok_iff {limit start : Nat} {c d : Cursor} {es : List SourceExpr}
    {form : Mark → SourceExpr} {e : SourceExpr} :
    finish limit start c es form = .ok (e, d) ↔
      1 + maxHeight es ≤ limit ∧ e = form ⟨⟨start, c.previous.stop⟩, 1 + maxHeight es⟩ ∧ d = c := by
  by_cases h : limit < 1 + maxHeight es
  · simp only [finish, if_pos h, reduceCtorEq, false_iff]
    omega
  · simp only [finish, if_neg h, Except.ok.injEq, Prod.mk.injEq, Nat.le_of_not_lt h, true_and]
    exact and_congr eq_comm eq_comm

@[simp] theorem height_withNote (e : SourceExpr) (m : Mark) :
    SourceExpr.height (e.withNote m) = m.height := by
  cases e <;> rfl

def mark (ts : List Token) (children : List SourceExpr) : Mark :=
  ⟨Token.cover ts, 1 + maxHeight children⟩

mutual

/-- `Phrase n x ts e` when `ts` spells `e` as an `x` with at most `n` levels of nesting. -/
inductive Phrase : Nat → Nonterminal → List Token → SourceExpr → Prop where
  | test {n ts t} : Phrase n (.level 1) ts t → Phrase (n + 1) .expression ts t
  | choice {n ts us vs t a b q c} : q.lexeme = .question → c.lexeme = .colon →
      Phrase n (.level 1) ts t → Phrase n .expression us a → Phrase n .expression vs b →
      Phrase (n + 1) .expression (ts ++ q :: (us ++ c :: vs))
        (.conditional (mark (ts ++ q :: (us ++ c :: vs)) [t, a, b]) t a b)
  | tighter {n p ts e} : p ≤ 10 → Phrase n (.level (p + 1)) ts e → Phrase n (.level p) ts e
  | connect {n p ts us l r o} (op : Connective) : o.lexeme = op.lexeme → op.level = p →
      Phrase n (.level p) ts l → Phrase n (.level (p + 1)) us r →
      Phrase n (.level p) (ts ++ o :: us) (join (mark (ts ++ o :: us) [l, r]) op l r)
  | operand {n ts e} : Phrase n .unary ts e → Phrase n (.level 11) ts e
  | unary {n ts e o} (op : UnaryOp) : o.lexeme = op.lexeme → Phrase n .unary ts e →
      Phrase (n + 1) .unary (o :: ts) (.unary (mark (o :: ts) [e]) op e)
  | plain {n ts e} : Phrase n .chain ts e → Phrase n .unary ts e
  | head {n ts e} : Phrase n .primary ts e → Phrase n .chain ts e
  | member {n ts e d k name} : d.lexeme = .dot → PropertyName k.lexeme name →
      Phrase n .chain ts e →
      Phrase n .chain (ts ++ [d, k]) (.member (mark (ts ++ [d, k]) [e]) e name)
  | index {n ts us e k o c} : o.lexeme = .lbracket → c.lexeme = .rbracket →
      Phrase n .chain ts e → Phrase n .expression us k →
      Phrase n .chain (ts ++ o :: (us ++ [c])) (.index (mark (ts ++ o :: (us ++ [c])) [e, k]) e k)
  | call {n ts us e es o c} : o.lexeme = .lparen → c.lexeme = .rparen →
      Phrase n .chain ts e → PhraseItems n us es →
      Phrase n .chain (ts ++ o :: (us ++ [c]))
        (.call (mark (ts ++ o :: (us ++ [c])) (e :: es)) e es)
  | leaf {n t e} : Leaf (mark [t] []) t.lexeme e → Phrase n .primary [t] e
  | group {n ts e o c} : o.lexeme = .lparen → c.lexeme = .rparen → Phrase n .expression ts e →
      Phrase n .primary (o :: (ts ++ [c]))
        (e.withNote ⟨Token.cover (o :: (ts ++ [c])), e.height⟩)
  | array {n ts es o c} : o.lexeme = .lbracket → c.lexeme = .rbracket → PhraseItems n ts es →
      Phrase n .primary (o :: (ts ++ [c])) (.array (mark (o :: (ts ++ [c])) es) es)

inductive PhraseItems : Nat → List Token → List SourceExpr → Prop where
  | nil {n} : PhraseItems n [] []
  | last {n ts e} : Phrase n .expression ts e → PhraseItems n ts [e]
  | more {n ts us e es c} : c.lexeme = .comma → Phrase n .expression ts e → PhraseItems n us es →
      PhraseItems n (ts ++ c :: us) (e :: es)

end

theorem Phrase.exists_first {n : Nat} {x : Nonterminal} {ts : List Token} {e : SourceExpr} :
    Phrase n x ts e → ∃ t us, ts = t :: us ∧ t.lexeme ≠ .rparen ∧ t.lexeme ≠ .rbracket
  | .test h | .tighter _ h | .operand h | .plain h | .head h => h.exists_first
  | .choice _ _ h _ _ | .connect _ _ _ h _ | .member _ _ h | .index _ _ h _ | .call _ _ h _ => by
    obtain ⟨t, us, rfl, hne⟩ := h.exists_first
    exact ⟨t, _, rfl, hne⟩
  | .unary op ho _ => ⟨_, _, rfl, ho ▸ op.lexeme_ne_close⟩
  | .leaf h => ⟨_, _, rfl, h.ne_close⟩
  | .group ho _ _ | .array ho _ _ => ⟨_, _, rfl, by simp [ho]⟩

end Parser

end SigilExpr
