import SigilExpr.Proofs.Syntax.Phrase
import SigilExpr.Proofs.Syntax.Subexpressions

/-!
# Phrases are derivations

A phrase of tokens is a derivation of their lexemes with the marks added. Marks and nesting do not
restrict anything: every derivation is a phrase as soon as there is a level of nesting for each
token, and no node of it is higher than the number of its tokens.
-/

set_option autoImplicit false

namespace SigilExpr

namespace Expr

variable {Note : Type}

variable (n : Note) (e k t a b : Expr Note) (es : List (Expr Note))

@[simp] theorem bare_unary (op : UnaryOp) :
    (Expr.unary n op e).bare = .unary () op e.bare := rfl

@[simp] theorem bare_conditional :
    (Expr.conditional n t a b).bare = .conditional () t.bare a.bare b.bare := rfl

@[simp] theorem bare_member (name : String) :
    (Expr.member n e name).bare = .member () e.bare name := rfl

@[simp] theorem bare_index : (Expr.index n e k).bare = .index () e.bare k.bare := rfl

@[simp] theorem bare_call : (Expr.call n e es).bare = .call () e.bare (es.map bare) := by
  rw [bare, map, mapAll_eq_map]
  rfl

@[simp] theorem bare_array : (Expr.array n es).bare = .array () (es.map bare) := by
  rw [bare, map, mapAll_eq_map]
  rfl

theorem bare_withNote : (e.withNote n).bare = e.bare := by
  cases e <;> rfl

end Expr

namespace Grammar

theorem bare_join (m : Mark) (op : Connective) (l r : SourceExpr) :
    (join m op l r).bare = join () op l.bare r.bare := by
  cases op <;> rfl

theorem Leaf.bare {Note : Type} {note : Note} {l : Lexeme} {e : Expr Note} (h : Leaf note l e) :
    Leaf () l e.bare := by
  cases h with
  | number x => exact .number x
  | string s => exact .string s
  | bool b => exact .bool b
  | null => exact .null
  | ident name hname => exact .ident name hname

theorem Leaf.exists_note {Note : Type} {l : Lexeme} {e : Expr Unit} (h : Leaf () l e)
    (note : Note) : ∃ e' : Expr Note, Leaf note l e' ∧ e'.bare = e := by
  cases h with
  | number x => exact ⟨_, .number x, rfl⟩
  | string s => exact ⟨_, .string s, rfl⟩
  | bool b => exact ⟨_, .bool b, rfl⟩
  | null => exact ⟨_, .null, rfl⟩
  | ident name hname => exact ⟨_, .ident name hname, rfl⟩

end Grammar

namespace Parser

open Grammar

mutual

theorem Phrase.derives {n : Nat} {x : Nonterminal} {ts : List Token} {e : SourceExpr} :
    Phrase n x ts e → Derives x (ts.map Token.lexeme) e.bare
  | .test h => .test h.derives
  | .choice hq hc ht ha hb => by
    simpa [hq, hc] using Derives.choice ht.derives ha.derives hb.derives
  | .tighter hp h => .tighter hp h.derives
  | .connect op ho hlevel hl hr => by
    rw [bare_join]
    simpa [ho] using Derives.connect op (mem_operatorsAt_iff.2 hlevel) hl.derives hr.derives
  | .operand h => .operand h.derives
  | .unary op ho h => by simpa [ho] using Derives.unary op h.derives
  | .plain h => .plain h.derives
  | .head h => .head h.derives
  | .member ho hk h => by simpa [ho] using Derives.member h.derives hk
  | .index ho hq h hk => by simpa [ho, hq] using Derives.index h.derives hk.derives
  | .call ho hq h hes => by
    simpa [ho, hq] using Derives.call h.derives hes.derives
  | .leaf h => .leaf h.bare
  | .group ho hq h => by
    rw [Expr.bare_withNote]
    simpa [ho, hq] using Derives.group h.derives
  | .array ho hq hes => by simpa [ho, hq] using Derives.array hes.derives

theorem PhraseItems.derives {n : Nat} {ts : List Token} {es : List SourceExpr} :
    PhraseItems n ts es → DerivesItems (ts.map Token.lexeme) (es.map Expr.bare)
  | .nil => .nil
  | .last h => .last h.derives
  | .more hq h hes => by simpa [hq] using DerivesItems.more h.derives hes.derives

end

theorem exists_of_map_eq_bracket {ts : List Token} {ls : List Lexeme} {l m : Lexeme}
    (h : ts.map Token.lexeme = l :: (ls ++ [m])) :
    ∃ o us q, ts = o :: (us ++ [q]) ∧ o.lexeme = l ∧ us.map Token.lexeme = ls ∧ q.lexeme = m := by
  obtain ⟨o, _, rfl, ho, h₁⟩ := List.map_eq_cons_iff.1 h
  obtain ⟨us, _, rfl, hus, h₂⟩ := List.map_eq_append_iff.1 h₁
  obtain ⟨q, _, rfl, hq, h₃⟩ := List.map_eq_cons_iff.1 h₂
  obtain rfl := List.map_eq_nil_iff.1 h₃
  exact ⟨o, us, q, rfl, ho, hus, hq⟩

/-- How many levels of nesting a nonterminal takes by itself. -/
def ownNesting : Nonterminal → Nat
  | .expression => 1
  | _ => 0

/-- The tokens `ts` are a phrase with the bare tree `e`, and the phrase is as small as `ts`. -/
def Marked (n : Nat) (x : Nonterminal) (ts : List Token) (e : Expr Unit) : Prop :=
  ∃ e', Phrase n x ts e' ∧ e'.bare = e ∧ SourceExpr.height e' ≤ ts.length

def MarkedItems (n : Nat) (ts : List Token) (es : List (Expr Unit)) : Prop :=
  ∃ es', PhraseItems n ts es' ∧ es'.map Expr.bare = es ∧
    ∀ e ∈ es', SourceExpr.height e ≤ ts.length

section

variable {n p : Nat} {ts us vs : List Token} {e t a b l r k : Expr Unit} {es : List (Expr Unit)}
variable {o q : Token}

theorem Marked.rule {m : Nat} {x y : Nonterminal}
    (h : ∀ {e'}, Phrase n x ts e' → Phrase m y ts e') (he : Marked n x ts e) : Marked m y ts e := by
  obtain ⟨e', hph, he, hh⟩ := he
  exact ⟨e', h hph, he, hh⟩

/-- The height of a node is bounded by its tokens if those of the nodes below it are. -/
theorem one_add_maxHeight_le {es : List SourceExpr} {m : Nat} (hm : m + 1 ≤ n)
    (h : ∀ e ∈ es, e.height ≤ m) : 1 + maxHeight es ≤ n := by
  have := maxHeight_le_iff.2 h
  omega

theorem Marked.choice (hq : q.lexeme = .question) (ho : o.lexeme = .colon)
    (ht : Marked n (.level 1) ts t) (ha : Marked n .expression us a)
    (hb : Marked n .expression vs b) :
    Marked (n + 1) .expression (ts ++ q :: (us ++ o :: vs)) (.conditional () t a b) := by
  obtain ⟨t', htp, rfl, hth⟩ := ht
  obtain ⟨a', hap, rfl, hah⟩ := ha
  obtain ⟨b', hbp, rfl, hbh⟩ := hb
  refine ⟨_, .choice hq ho htp hap hbp, rfl, ?_⟩
  apply one_add_maxHeight_le (m := ts.length + us.length + vs.length)
  · simp only [List.length_append, List.length_cons]
    omega
  · simp only [List.mem_cons, List.not_mem_nil, or_false]
    rintro e (rfl | rfl | rfl) <;> omega

theorem Marked.connect {op : Connective} (ho : o.lexeme = op.lexeme) (hp : op.level = p)
    (hl : Marked n (.level p) ts l) (hr : Marked n (.level (p + 1)) us r) :
    Marked n (.level p) (ts ++ o :: us) (join () op l r) := by
  obtain ⟨l', hlp, rfl, hlh⟩ := hl
  obtain ⟨r', hrp, rfl, hrh⟩ := hr
  refine ⟨_, .connect op ho hp hlp hrp, bare_join _ _ _ _, ?_⟩
  rw [SourceExpr.height, note_join]
  apply one_add_maxHeight_le (m := ts.length + us.length)
  · simp only [List.length_append, List.length_cons]
    omega
  · simp only [List.mem_cons, List.not_mem_nil, or_false]
    rintro e (rfl | rfl) <;> omega

theorem Marked.unary {op : UnaryOp} (ho : o.lexeme = op.lexeme) (h : Marked n .unary ts e) :
    Marked (n + 1) .unary (o :: ts) (.unary () op e) := by
  obtain ⟨e', hph, rfl, hh⟩ := h
  refine ⟨_, .unary op ho hph, rfl, ?_⟩
  exact one_add_maxHeight_le (m := ts.length) (Nat.le_refl _) (by simpa using hh)

theorem Marked.member {name : String} (ho : o.lexeme = .dot) (hq : PropertyName q.lexeme name)
    (h : Marked n .chain ts e) : Marked n .chain (ts ++ [o, q]) (.member () e name) := by
  obtain ⟨e', hph, rfl, hh⟩ := h
  refine ⟨_, .member ho hq hph, rfl, ?_⟩
  exact one_add_maxHeight_le (m := ts.length) (by simp) (by simpa using hh)

theorem Marked.index (ho : o.lexeme = .lbracket) (hq : q.lexeme = .rbracket)
    (h : Marked n .chain ts e) (hk : Marked n .expression us k) :
    Marked n .chain (ts ++ o :: (us ++ [q])) (.index () e k) := by
  obtain ⟨e', hph, rfl, hh⟩ := h
  obtain ⟨k', hkp, rfl, hkh⟩ := hk
  refine ⟨_, .index ho hq hph hkp, rfl, ?_⟩
  apply one_add_maxHeight_le (m := ts.length + us.length)
  · simp only [List.length_append, List.length_cons]
    omega
  · simp only [List.mem_cons, List.not_mem_nil, or_false]
    rintro e (rfl | rfl) <;> omega

theorem Marked.call (ho : o.lexeme = .lparen) (hq : q.lexeme = .rparen)
    (h : Marked n .chain ts e) (hes : MarkedItems n us es) :
    Marked n .chain (ts ++ o :: (us ++ [q])) (.call () e es) := by
  obtain ⟨e', hph, rfl, hh⟩ := h
  obtain ⟨es', hesp, rfl, hesh⟩ := hes
  refine ⟨_, .call ho hq hph hesp, Expr.bare_call _ _ _, ?_⟩
  apply one_add_maxHeight_le (m := ts.length + us.length)
  · simp only [List.length_append, List.length_cons]
    omega
  · simp only [List.forall_mem_cons]
    exact ⟨by omega, fun e he => Nat.le_trans (hesh e he) (Nat.le_add_left _ _)⟩

theorem Marked.leaf (h : Leaf () q.lexeme e) : Marked n .primary [q] e := by
  obtain ⟨e', hl, he⟩ := h.exists_note (mark [q] [])
  exact ⟨e', .leaf hl, he, by rw [SourceExpr.height, hl.note_eq]; exact Nat.le_refl _⟩

theorem Marked.group (ho : o.lexeme = .lparen) (hq : q.lexeme = .rparen)
    (h : Marked n .expression ts e) : Marked n .primary (o :: (ts ++ [q])) e := by
  obtain ⟨e', hph, rfl, hh⟩ := h
  refine ⟨_, .group ho hq hph, Expr.bare_withNote _ _, ?_⟩
  simp only [height_withNote, List.length_cons, List.length_append]
  omega

theorem Marked.array (ho : o.lexeme = .lbracket) (hq : q.lexeme = .rbracket)
    (hes : MarkedItems n ts es) : Marked n .primary (o :: (ts ++ [q])) (.array () es) := by
  obtain ⟨es', hesp, rfl, hesh⟩ := hes
  refine ⟨_, .array ho hq hesp, Expr.bare_array _ _, ?_⟩
  exact one_add_maxHeight_le (m := ts.length) (by simp) hesh

theorem MarkedItems.last (h : Marked n .expression ts e) : MarkedItems n ts [e] := by
  obtain ⟨e', hph, rfl, hh⟩ := h
  exact ⟨[e'], .last hph, rfl, by simpa using hh⟩

theorem MarkedItems.more (hq : q.lexeme = .comma) (h : Marked n .expression ts e)
    (hes : MarkedItems n us es) : MarkedItems n (ts ++ q :: us) (e :: es) := by
  obtain ⟨e', hph, rfl, hh⟩ := h
  obtain ⟨es', hesp, rfl, hesh⟩ := hes
  refine ⟨e' :: es', .more hq hph hesp, rfl, ?_⟩
  simp only [List.length_append, List.length_cons, List.forall_mem_cons]
  exact ⟨by omega, fun e he => by have := hesh e he; omega⟩

end

mutual

theorem marked_of_derives {x : Nonterminal} {ls : List Lexeme} {e : Expr Unit} :
    Derives x ls e → ∀ {ts : List Token} {n : Nat}, ts.map Token.lexeme = ls →
      ts.length + ownNesting x ≤ n → Marked n x ts e
  | .test h, _, n, hts, hn => by
    simp only [ownNesting] at hn
    obtain ⟨n, rfl⟩ : ∃ k, n = k + 1 := ⟨n - 1, by omega⟩
    exact (marked_of_derives h hts (by simp only [ownNesting]; omega)).rule .test
  | .choice ht ha hb, _, n, h₀, hn => by
    obtain ⟨ts, _, rfl, hts, h₁⟩ := List.map_eq_append_iff.1 h₀
    obtain ⟨q, _, rfl, hq, h₂⟩ := List.map_eq_cons_iff.1 h₁
    obtain ⟨us, _, rfl, hus, h₃⟩ := List.map_eq_append_iff.1 h₂
    obtain ⟨o, vs, rfl, ho, hvs⟩ := List.map_eq_cons_iff.1 h₃
    simp only [ownNesting, List.length_append, List.length_cons] at hn
    obtain ⟨n, rfl⟩ : ∃ k, n = k + 1 := ⟨n - 1, by omega⟩
    exact .choice hq ho (marked_of_derives ht hts (by simp only [ownNesting]; omega))
      (marked_of_derives ha hus (by simp only [ownNesting]; omega))
      (marked_of_derives hb hvs (by simp only [ownNesting]; omega))
  | .tighter hp h, _, _, hts, hn => (marked_of_derives h hts hn).rule (.tighter hp)
  | .connect op hop hl hr, _, n, h₀, hn => by
    obtain ⟨ts, _, rfl, hts, h₁⟩ := List.map_eq_append_iff.1 h₀
    obtain ⟨o, us, rfl, ho, hus⟩ := List.map_eq_cons_iff.1 h₁
    simp only [ownNesting, List.length_append, List.length_cons] at hn
    exact .connect ho (mem_operatorsAt_iff.1 hop)
      (marked_of_derives hl hts (by simp only [ownNesting]; omega))
      (marked_of_derives hr hus (by simp only [ownNesting]; omega))
  | .operand h, _, _, hts, hn => (marked_of_derives h hts hn).rule .operand
  | .unary op h, _, n, h₀, hn => by
    obtain ⟨o, ts, rfl, ho, hts⟩ := List.map_eq_cons_iff.1 h₀
    simp only [ownNesting, List.length_cons] at hn
    obtain ⟨n, rfl⟩ : ∃ k, n = k + 1 := ⟨n - 1, by omega⟩
    exact .unary ho (marked_of_derives h hts (by simp only [ownNesting]; omega))
  | .plain h, _, _, hts, hn => (marked_of_derives h hts hn).rule .plain
  | .head h, _, _, hts, hn => (marked_of_derives h hts hn).rule .head
  | .member h hk, _, n, h₀, hn => by
    obtain ⟨ts, _, rfl, hts, h₁⟩ := List.map_eq_append_iff.1 h₀
    obtain ⟨o, _, rfl, ho, h₂⟩ := List.map_eq_cons_iff.1 h₁
    obtain ⟨q, _, rfl, rfl, h₃⟩ := List.map_eq_cons_iff.1 h₂
    obtain rfl := List.map_eq_nil_iff.1 h₃
    simp only [ownNesting, List.length_append, List.length_cons] at hn
    exact .member ho hk (marked_of_derives h hts (by simp only [ownNesting]; omega))
  | .index h hk, _, n, h₀, hn => by
    obtain ⟨ts, _, rfl, hts, h₁⟩ := List.map_eq_append_iff.1 h₀
    obtain ⟨o, us, q, rfl, ho, hus, hq⟩ := exists_of_map_eq_bracket h₁
    simp only [ownNesting, List.length_append, List.length_cons] at hn
    exact .index ho hq (marked_of_derives h hts (by simp only [ownNesting]; omega))
      (marked_of_derives hk hus (by simp only [ownNesting]; omega))
  | .call h hes, _, n, h₀, hn => by
    obtain ⟨ts, _, rfl, hts, h₁⟩ := List.map_eq_append_iff.1 h₀
    obtain ⟨o, us, q, rfl, ho, hus, hq⟩ := exists_of_map_eq_bracket h₁
    simp only [ownNesting, List.length_append, List.length_cons] at hn
    exact .call ho hq (marked_of_derives h hts (by simp only [ownNesting]; omega))
      (marked_of_derivesItems hes hus (by omega))
  | .leaf h, _, n, h₀, hn => by
    obtain ⟨q, _, rfl, rfl, h₁⟩ := List.map_eq_cons_iff.1 h₀
    obtain rfl := List.map_eq_nil_iff.1 h₁
    exact .leaf h
  | .group h, _, n, h₀, hn => by
    obtain ⟨o, us, q, rfl, ho, hus, hq⟩ := exists_of_map_eq_bracket h₀
    simp only [ownNesting, List.length_append, List.length_cons] at hn
    exact .group ho hq (marked_of_derives h hus (by simp only [ownNesting]; omega))
  | .array hes, _, n, h₀, hn => by
    obtain ⟨o, us, q, rfl, ho, hus, hq⟩ := exists_of_map_eq_bracket h₀
    simp only [ownNesting, List.length_append, List.length_cons] at hn
    exact .array ho hq (marked_of_derivesItems hes hus (by omega))

theorem marked_of_derivesItems {ls : List Lexeme} {es : List (Expr Unit)} :
    DerivesItems ls es → ∀ {ts : List Token} {n : Nat}, ts.map Token.lexeme = ls →
      ts.length + 1 ≤ n → MarkedItems n ts es
  | .nil, _, n, h₀, _ => by
    obtain rfl := List.map_eq_nil_iff.1 h₀
    exact ⟨[], .nil, rfl, by simp⟩
  | .last h, _, _, hts, hn => .last (marked_of_derives h hts hn)
  | .more h hes, _, n, h₀, hn => by
    obtain ⟨ts, _, rfl, hts, h₁⟩ := List.map_eq_append_iff.1 h₀
    obtain ⟨q, us, rfl, hq, hus⟩ := List.map_eq_cons_iff.1 h₁
    simp only [List.length_append, List.length_cons] at hn
    exact .more hq (marked_of_derives h hts (by simp only [ownNesting]; omega))
      (marked_of_derivesItems hes hus (by omega))

end

end Parser

end SigilExpr
