import SigilExpr.Proofs.Syntax.Completeness
import SigilExpr.Proofs.Syntax.Derivation

/-!
# The grammar is unambiguous

A row of lexemes has at most one derivation. The parser is used as an instrument: what it reads of a
row depends on the row alone, so where two phrases of one kind begin at one place and both stop,
they are the same row. The rules that recurse on the left are taken apart into a head and the rows
that were added to it one after the other, and these are compared from the head on.
-/

set_option autoImplicit false

namespace SigilExpr

namespace Parser

open Grammar

/-- Tokens with the given lexemes; their places do not matter. -/
def tokensOf (ls : List Lexeme) : List Token := ls.map fun l => ⟨l, default⟩

@[simp] theorem map_lexeme_tokensOf (ls : List Lexeme) : (tokensOf ls).map Token.lexeme = ls := by
  simp [tokensOf, Function.comp_def]

@[simp] theorem length_tokensOf (ls : List Lexeme) : (tokensOf ls).length = ls.length := by
  simp [tokensOf]

/-- The row is read whole where `rest` follows it. -/
def ReadsWhole {α : Type} (read : Cursor → Except Fault (α × Cursor)) (ls rest : List Lexeme) :
    Prop :=
  ∃ a d, read (.ofTokens (tokensOf (ls ++ rest))) = .ok (a, d) ∧ d.rest = tokensOf rest

/-- What is read of a row depends on the row alone. -/
theorem ReadsWhole.unique {α : Type} {read : Cursor → Except Fault (α × Cursor)}
    {ls ms rest rest' : List Lexeme} (h : ReadsWhole read ls rest) (h' : ReadsWhole read ms rest')
    (heq : ls ++ rest = ms ++ rest') : ls = ms ∧ rest = rest' := by
  obtain ⟨a, d, hread, hd⟩ := h
  obtain ⟨b, d', hread', hd'⟩ := h'
  rw [heq, hread'] at hread
  obtain ⟨-, rfl⟩ := Prod.mk.inj (Except.ok.inj hread)
  have hrest : rest = rest' := by
    rw [← map_lexeme_tokensOf rest, ← hd, hd', map_lexeme_tokensOf]
  subst hrest
  exact ⟨List.append_cancel_right heq, rfl⟩

theorem exists_passes (ls rest : List Lexeme) :
    ∃ d, (Cursor.ofTokens (tokensOf (ls ++ rest))).Passes (tokensOf ls) d ∧
      d.rest = tokensOf rest ∧ d.lexeme = rest.headD .eof := by
  let d : Cursor :=
    ⟨((tokensOf ls).getLast?.map Token.span).getD ⟨0, 0⟩, tokensOf rest, _, rfl⟩
  refine ⟨d, ⟨?_, rfl⟩, rfl, ?_⟩
  · simp [d, Cursor.ofTokens, tokensOf]
  · cases rest <;> rfl

section

variable {ls ms rest rest' : List Lexeme} {p : Nat} {e f : Expr Unit} {es fs : List (Expr Unit)}

theorem completes_of_derives {x : Nonterminal} (h : Derives x ls e) {n : Nat}
    (hn : ls.length + 1 ≤ n) :
    ∃ e', Completes n n x (tokensOf ls) e' := by
  have hown : ownNesting x ≤ 1 := by cases x <;> simp [ownNesting]
  obtain ⟨e', hph, -, hheight⟩ := marked_of_derives (n := n) h (map_lexeme_tokensOf ls)
    (by rw [length_tokensOf]; omega)
  rw [length_tokensOf] at hheight
  exact ⟨e', hph.completes (by omega)⟩

theorem readsWhole_level (h : Derives (.level (p + 1)) ls e) (hrest : Ends p (rest.headD .eof))
    {n : Nat} (hn : ls.length + 1 ≤ n) :
    ReadsWhole (levels n (operandWithin n n) (10 - p)) ls rest := by
  obtain ⟨e', hcompletes⟩ := completes_of_derives h hn
  obtain ⟨d, hpasses, hd, hl⟩ := exists_passes ls rest
  exact ⟨e', d, hcompletes.level_eq hpasses (hl ▸ hrest), hd⟩

theorem readsWhole_expression (h : Derives .expression ls e) (hrest : Ends 0 (rest.headD .eof))
    (hq : rest.headD .eof ≠ .question) {n : Nat} (hn : ls.length + 1 ≤ n) :
    ReadsWhole (descend n n .expression) ls rest := by
  obtain ⟨e', hcompletes⟩ := completes_of_derives h hn
  obtain ⟨d, hpasses, hd, hl⟩ := exists_passes ls rest
  exact ⟨e', d, hcompletes hpasses (hl ▸ hrest) (hl ▸ hq), hd⟩

theorem readsWhole_primary (h : Derives .primary ls e) (rest : List Lexeme) {n : Nat}
    (hn : ls.length + 1 ≤ n) :
    ReadsWhole (primary n (descend n n .expression)) ls rest := by
  obtain ⟨e', hcompletes⟩ := completes_of_derives h hn
  obtain ⟨d, hpasses, hd, -⟩ := exists_passes ls rest
  exact ⟨e', d, (hcompletes hpasses).2.2, hd⟩

theorem readsWhole_items {close : Lexeme} (h : DerivesItems ls es)
    (hclose : close = .rparen ∨ close = .rbracket) (rest : List Lexeme) {n : Nat}
    (hn : (ls ++ [close] ++ rest).length + 1 ≤ n) :
    ReadsWhole (items (descend n n .expression) close .argumentsEnd n)
      (ls ++ [close]) rest := by
  simp only [List.length_append, List.length_singleton] at hn
  obtain ⟨es', hph, -, hheight⟩ := marked_of_derivesItems (n := n) h (map_lexeme_tokensOf ls)
    (by rw [length_tokensOf]; omega)
  have hcompletes : CompletesItems n n (tokensOf ls) es' := by
    refine hph.completes ?_
    intro e he
    have hle := hheight e he
    rw [length_tokensOf] at hle
    omega
  obtain ⟨d, hpasses, hd, -⟩ := exists_passes (ls ++ [close]) rest
  have htokens : tokensOf (ls ++ [close]) = tokensOf ls ++ [⟨close, default⟩] := by
    simp [tokensOf]
  rw [htokens] at hpasses
  refine ⟨es', d, hcompletes rfl hclose hpasses ?_, hd⟩
  simp only [Cursor.ofTokens, length_tokensOf, List.length_append, List.length_singleton]
  omega

theorem level_unique (h : Derives (.level (p + 1)) ls e) (h' : Derives (.level (p + 1)) ms f)
    (hrest : Ends p (rest.headD .eof)) (hrest' : Ends p (rest'.headD .eof))
    (heq : ls ++ rest = ms ++ rest') : ls = ms ∧ rest = rest' := by
  have hr := readsWhole_level h hrest (n := ls.length + ms.length + 1) (by omega)
  have hr' := readsWhole_level h' hrest' (n := ls.length + ms.length + 1) (by omega)
  exact hr.unique hr' heq

theorem expression_unique (h : Derives .expression ls e) (h' : Derives .expression ms f)
    (hrest : rest.headD .eof ∈ [Lexeme.rparen, .rbracket, .comma, .colon, .eof])
    (hrest' : rest'.headD .eof ∈ [Lexeme.rparen, .rbracket, .comma, .colon, .eof])
    (heq : ls ++ rest = ms ++ rest') : ls = ms ∧ rest = rest' := by
  have hends : ∀ {l : Lexeme}, l ∈ [Lexeme.rparen, .rbracket, .comma, .colon, .eof] →
      Ends 0 l ∧ l ≠ .question := by
    intro l hl
    simp only [List.mem_cons, List.not_mem_nil, or_false] at hl
    rcases hl with rfl | rfl | rfl | rfl | rfl
    all_goals exact ⟨ends_of_mem (by simp) 0, by simp⟩
  have hr := readsWhole_expression h (hends hrest).1 (hends hrest).2
    (n := ls.length + ms.length + 1) (by omega)
  have hr' := readsWhole_expression h' (hends hrest').1 (hends hrest').2
    (n := ls.length + ms.length + 1) (by omega)
  exact hr.unique hr' heq

theorem primary_unique (h : Derives .primary ls e) (h' : Derives .primary ms f)
    (heq : ls ++ rest = ms ++ rest') : ls = ms ∧ rest = rest' := by
  have hr := readsWhole_primary h rest (n := ls.length + ms.length + 1) (by omega)
  have hr' := readsWhole_primary h' rest' (n := ls.length + ms.length + 1) (by omega)
  exact hr.unique hr' heq

theorem items_unique {close : Lexeme} (h : DerivesItems ls es) (h' : DerivesItems ms fs)
    (hclose : close = .rparen ∨ close = .rbracket)
    (heq : ls ++ close :: rest = ms ++ close :: rest') : ls = ms ∧ rest = rest' := by
  have heq' : ls ++ [close] ++ rest = ms ++ [close] ++ rest' := by simpa using heq
  have hr := readsWhole_items h hclose rest (Nat.le_refl _)
  have hr' := readsWhole_items h' hclose rest' (Nat.le_refl _)
  rw [heq'] at hr
  obtain ⟨hls, rfl⟩ := hr.unique hr' heq'
  exact ⟨List.append_cancel_right hls, rfl⟩

end

/-- Rows that are a head with any number of tails after it. -/
def Chained (H T : List Lexeme → Prop) (row : List Lexeme) : Prop :=
  ∃ (head : List Lexeme) (tails : List (List Lexeme)),
    H head ∧ (∀ t ∈ tails, T t) ∧ row = head ++ tails.flatten

/-- The end of a head and of each tail can be told, provided that what follows is `Good`. -/
structure Separated (H T Good : List Lexeme → Prop) : Prop where
  good_nil : Good []
  good_append : ∀ ⦃t⦄, T t → ∀ rest, Good (t ++ rest)
  ne_nil : ∀ ⦃t⦄, T t → t ≠ []
  head : ∀ ⦃a b rest rest'⦄, H a → H b → Good rest → Good rest' → a ++ rest = b ++ rest' →
    a = b ∧ rest = rest'
  tail : ∀ ⦃t u rest rest'⦄, T t → T u → Good rest → Good rest' → t ++ rest = u ++ rest' →
    t = u ∧ rest = rest'

namespace Chained

variable {H T : List Lexeme → Prop} {row t : List Lexeme}

theorem head (h : H row) : Chained H T row := ⟨row, [], h, by simp, by simp⟩

theorem tail (h : Chained H T row) (ht : T t) : Chained H T (row ++ t) := by
  obtain ⟨a, tails, ha, htails, rfl⟩ := h
  have hall : ∀ u ∈ tails ++ [t], T u :=
    List.forall_mem_append.2 ⟨htails, List.forall_mem_singleton.2 ht⟩
  exact ⟨a, tails ++ [t], ha, hall, by simp⟩

end Chained

namespace Separated

variable {H T Good : List Lexeme → Prop} {a b t u : List Lexeme}

theorem good_flatten (hsep : Separated H T Good) {tails : List (List Lexeme)}
    (htails : ∀ t ∈ tails, T t) : Good tails.flatten := by
  cases tails with
  | nil => exact hsep.good_nil
  | cons t tails => exact hsep.good_append (htails t (by simp)) _

/-- By induction on the tails: the first of each row is told apart from the rest. -/
theorem flatten_inj (hsep : Separated H T Good) {ts us : List (List Lexeme)}
    (hts : ∀ t ∈ ts, T t) (hus : ∀ u ∈ us, T u) (h : ts.flatten = us.flatten) : ts = us := by
  induction ts generalizing us with
  | nil =>
    cases us with
    | nil => rfl
    | cons u us =>
      have hu := hsep.ne_nil (hus u (by simp))
      exact absurd (List.append_eq_nil_iff.1 h.symm).1 hu
  | cons t ts ih =>
    obtain ⟨ht, hts'⟩ := List.forall_mem_cons.1 hts
    cases us with
    | nil => exact absurd (List.append_eq_nil_iff.1 h).1 (hsep.ne_nil ht)
    | cons u us =>
      obtain ⟨hu, hus'⟩ := List.forall_mem_cons.1 hus
      obtain ⟨rfl, hrest⟩ := hsep.tail ht hu (hsep.good_flatten hts') (hsep.good_flatten hus') h
      rw [ih hts' hus' hrest]

/-- A row with a tail added to it is not a head. -/
theorem append_ne_head (hsep : Separated H T Good) (ha : Chained H T a) (ht : T t) (hb : H b) :
    a ++ t ≠ b := by
  intro h
  obtain ⟨c, tails, hc, htails, rfl⟩ := ha
  have hall : ∀ u ∈ tails ++ [t], T u :=
    List.forall_mem_append.2 ⟨htails, List.forall_mem_singleton.2 ht⟩
  have heq : c ++ (tails ++ [t]).flatten = b ++ [] := by simpa using h
  obtain ⟨-, hnil⟩ := hsep.head hc hb (hsep.good_flatten hall) hsep.good_nil heq
  have hempty : tails ++ [t] = [] := hsep.flatten_inj hall (by simp) hnil
  simp at hempty

/-- The last tail of a row can be told from the row before it. -/
theorem append_inj (hsep : Separated H T Good) (ha : Chained H T a) (hb : Chained H T b)
    (ht : T t) (hu : T u) (h : a ++ t = b ++ u) : a = b ∧ t = u := by
  obtain ⟨c, ts, hc, hts, rfl⟩ := ha
  obtain ⟨d, us, hd, hus, rfl⟩ := hb
  have hts' : ∀ v ∈ ts ++ [t], T v :=
    List.forall_mem_append.2 ⟨hts, List.forall_mem_singleton.2 ht⟩
  have hus' : ∀ v ∈ us ++ [u], T v :=
    List.forall_mem_append.2 ⟨hus, List.forall_mem_singleton.2 hu⟩
  have heq : c ++ (ts ++ [t]).flatten = d ++ (us ++ [u]).flatten := by simpa using h
  obtain ⟨rfl, hflat⟩ := hsep.head hc hd (hsep.good_flatten hts') (hsep.good_flatten hus') heq
  have hlast : ts ++ [t] = us ++ [u] := hsep.flatten_inj hts' hus' hflat
  obtain ⟨rfl, hsingle⟩ := List.append_inj' hlast rfl
  exact ⟨rfl, List.singleton_inj.1 hsingle⟩

end Separated

def Row (x : Nonterminal) (ls : List Lexeme) : Prop := ∃ e, Derives x ls e

/-- What the rule for operators adds to a row of a level: an operator and its right operand. -/
inductive OperatorTail (p : Nat) : List Lexeme → Prop where
  | mk (op : Connective) {ms : List Lexeme} (hop : op.spelling ∈ operatorsAt p)
      (h : Row (.level (p + 1)) ms) : OperatorTail p (op.lexeme :: ms)

/-- What the rules for suffixes add to a row of a chain. -/
inductive SuffixTail : List Lexeme → Prop where
  | member {k : Lexeme} {name : String} (hk : PropertyName k name) : SuffixTail [.dot, k]
  | index {ms : List Lexeme} (h : Row .expression ms) :
      SuffixTail (.lbracket :: (ms ++ [.rbracket]))
  | call {ms : List Lexeme} {es : List (Expr Unit)} (h : DerivesItems ms es) :
      SuffixTail (.lparen :: (ms ++ [.rparen]))

theorem separated_level (p : Nat) :
    Separated (Row (.level (p + 1))) (OperatorTail p) fun rest => Ends p (rest.headD .eof) where
  good_nil := ends_of_mem (by simp) p
  good_append := by
    rintro _ ⟨op, hop, -⟩ rest
    rw [← mem_operatorsAt_iff.1 hop]
    exact ends_lexeme op
  ne_nil := by
    rintro _ ⟨⟩
    simp
  head := by
    rintro a b rest rest' ⟨e, ha⟩ ⟨f, hb⟩ hrest hrest' heq
    exact level_unique ha hb hrest hrest' heq
  tail := by
    rintro _ _ rest rest' ⟨op, -, ⟨e, ht⟩⟩ ⟨op', -, ⟨f, hu⟩⟩ hrest hrest' heq
    obtain ⟨hop, htails⟩ := List.cons.inj heq
    obtain rfl := Connective.lexeme_injective hop
    obtain ⟨rfl, hrests⟩ := level_unique ht hu hrest hrest' htails
    exact ⟨rfl, hrests⟩

theorem separated_chain : Separated (Row .primary) SuffixTail fun _ => True where
  good_nil := trivial
  good_append := fun _ _ _ => trivial
  ne_nil := by
    rintro _ ⟨⟩ <;> simp
  head := by
    rintro a b rest rest' ⟨e, ha⟩ ⟨f, hb⟩ - - heq
    exact primary_unique ha hb heq
  tail := by
    rintro _ _ rest rest' (hk | ⟨e, h⟩ | h) (hk' | ⟨f, h'⟩ | h') - - heq
    case member.member =>
      simp only [List.cons_append, List.nil_append, List.cons.injEq, true_and] at heq
      obtain ⟨rfl, rfl⟩ := heq
      exact ⟨rfl, rfl⟩
    case index.index =>
      simp only [List.cons_append, List.append_assoc, List.nil_append, List.cons.injEq,
        true_and] at heq
      obtain ⟨rfl, hrest⟩ := expression_unique h h' (by simp) (by simp) heq
      exact ⟨rfl, (List.cons.inj hrest).2⟩
    case call.call =>
      simp only [List.cons_append, List.append_assoc, List.nil_append, List.cons.injEq,
        true_and] at heq
      obtain ⟨rfl, hrest⟩ := items_unique h h' (.inl rfl) heq
      exact ⟨rfl, hrest⟩
    all_goals simp at heq

theorem chained_of_level {p : Nat} :
    (d : Derivation (.level p)) → p ≤ 10 →
      Chained (Row (.level (p + 1))) (OperatorTail p) d.lexemes
  | .tighter _ d, _ => .head ⟨_, d.derives⟩
  | .connect op hop l r, hp => (chained_of_level l hp).tail ⟨op, hop, ⟨_, r.derives⟩⟩
  | .operand _, hp => absurd hp (by decide)

theorem chained_of_chain :
    (d : Derivation .chain) → Chained (Row .primary) SuffixTail d.lexemes
  | .head d => .head ⟨_, d.derives⟩
  | .member d _ _ hk => (chained_of_chain d).tail (.member hk)
  | .index d k => (chained_of_chain d).tail (.index ⟨_, k.derives⟩)
  | .call d args => (chained_of_chain d).tail (.call args.derives)

section

variable {t u : List Lexeme}

theorem primary_ne_chain (d : Derivation .primary) (e : Derivation .chain) (ht : SuffixTail t) :
    d.lexemes ≠ e.lexemes ++ t :=
  (separated_chain.append_ne_head (chained_of_chain e) ht ⟨_, d.derives⟩).symm

theorem chain_append_inj {d e : Derivation .chain} (ht : SuffixTail t) (hu : SuffixTail u)
    (h : d.lexemes ++ t = e.lexemes ++ u) : d.lexemes = e.lexemes ∧ t = u :=
  separated_chain.append_inj (chained_of_chain d) (chained_of_chain e) ht hu h

theorem tighter_ne_level {p : Nat} (hp : p ≤ 10) (d : Derivation (.level (p + 1)))
    (l : Derivation (.level p)) (ht : OperatorTail p t) : d.lexemes ≠ l.lexemes ++ t :=
  ((separated_level p).append_ne_head (chained_of_level l hp) ht ⟨_, d.derives⟩).symm

theorem level_append_inj {p : Nat} {l l' : Derivation (.level p)} (ht : OperatorTail p t)
    (hu : OperatorTail p u) (h : l.lexemes ++ t = l'.lexemes ++ u) :
    l.lexemes = l'.lexemes ∧ t = u := by
  have hp : p ≤ 10 := by
    obtain ⟨op, hop, -⟩ := ht
    exact mem_operatorsAt_iff.1 hop ▸ op.level_le
  exact (separated_level p).append_inj (chained_of_level l hp) (chained_of_level l' hp) ht hu h

end

end Parser

namespace Grammar

open SigilExpr.Parser

theorem PropertyName.unique {l : Lexeme} {m n : String} (hm : PropertyName l m)
    (hn : PropertyName l n) : m = n := by
  have heq := propertyName?_eq_some_iff.2 hm
  rw [propertyName?_eq_some_iff.2 hn] at heq
  exact (Option.some.inj heq).symm

theorem Leaf.unique {l : Lexeme} {e f : Expr Unit} (h : Leaf () l e) (h' : Leaf () l f) :
    e = f := by
  cases h <;> cases h' <;> rfl

/-- The first lexeme of a chain is no operator before an operand. -/
theorem Derivation.exists_first_chain :
    (d : Derivation .chain) → ∃ l ls, d.lexemes = l :: ls ∧ l.unary? = none
  | .head (.leaf l e h) => ⟨l, [], rfl, h.unary?_eq_none⟩
  | .head (.group d) => ⟨_, _, rfl, rfl⟩
  | .head (.array items) => ⟨_, _, rfl, rfl⟩
  | .member d _ _ _ | .index d _ | .call d _ => by
    obtain ⟨l, ls, hls, hl⟩ := d.exists_first_chain
    exact ⟨l, _, by rw [lexemes, hls, List.cons_append], hl⟩

theorem Derivation.unary_ne_chain (op : UnaryOp) (ls : List Lexeme) (d : Derivation .chain) :
    op.lexeme :: ls ≠ d.lexemes := by
  intro h
  obtain ⟨l, ms, hms, hl⟩ := d.exists_first_chain
  rw [hms] at h
  exact op.lexeme_ne hl (List.cons.inj h).1

theorem Derivation.lexemes_ne_nil {x : Nonterminal} : (d : Derivation x) → d.lexemes ≠ []
  | .test d | .tighter _ d | .operand d | .plain d | .head d => d.lexemes_ne_nil
  | .choice _ _ _ | .connect _ _ _ _ | .unary _ _ | .member _ _ _ _ | .index _ _ | .call _ _
  | .leaf _ _ _ | .group _ | .array _ => by simp [lexemes]

mutual

/-- A row has one derivation at most. By recursion on both derivations: the row decides which rule
was used last, and where its parts are. -/
theorem Derivation.eq_of_lexemes_eq :
    {x : Nonterminal} → (d d' : Derivation x) → d.lexemes = d'.lexemes → d = d'
  | _, .test t, .test t', h => by rw [t.eq_of_lexemes_eq t' h]
  | _, .test t, .choice t' a' b', h => by
    obtain ⟨-, hrest⟩ := level_unique t.derives t'.derives (ends_of_mem (by simp) 0)
      (ends_of_mem (by simp) 0) ((List.append_nil _).trans h)
    cases hrest
  | _, .choice t a b, .test t', h => by
    obtain ⟨-, hrest⟩ := level_unique t.derives t'.derives (ends_of_mem (by simp) 0)
      (ends_of_mem (by simp) 0) (h.trans (List.append_nil _).symm)
    cases hrest
  | _, .choice t a b, .choice t' a' b', h => by
    obtain ⟨ht, hrest⟩ := level_unique t.derives t'.derives (ends_of_mem (by simp) 0)
      (ends_of_mem (by simp) 0) h
    obtain ⟨ha, hrest'⟩ := expression_unique a.derives a'.derives (by simp) (by simp)
      (List.cons.inj hrest).2
    rw [t.eq_of_lexemes_eq t' ht, a.eq_of_lexemes_eq a' ha,
      b.eq_of_lexemes_eq b' (List.cons.inj hrest').2]
  | _, .tighter hp d, .tighter _ d', h => by rw [d.eq_of_lexemes_eq d' h]
  | _, .tighter hp d, .connect op hop l r, h =>
    absurd h (tighter_ne_level hp d l ⟨op, hop, ⟨_, r.derives⟩⟩)
  | _, .connect op hop l r, .tighter hp d, h =>
    absurd h.symm (tighter_ne_level hp d l ⟨op, hop, ⟨_, r.derives⟩⟩)
  | _, .connect op hop l r, .connect op' hop' l' r', h => by
    obtain ⟨hl, htail⟩ :=
      level_append_inj ⟨op, hop, ⟨_, r.derives⟩⟩ ⟨op', hop', ⟨_, r'.derives⟩⟩ h
    obtain ⟨hlexeme, hr⟩ := List.cons.inj htail
    obtain rfl := Connective.lexeme_injective hlexeme
    rw [l.eq_of_lexemes_eq l' hl, r.eq_of_lexemes_eq r' hr]
  | _, .operand d, .operand d', h => by rw [d.eq_of_lexemes_eq d' h]
  | _, .operand _, .tighter hp _, _ => absurd hp (by decide)
  | _, .tighter hp _, .operand _, _ => absurd hp (by decide)
  | _, .operand _, .connect _ hop _ _, _ => absurd hop (by simp [operatorsAt])
  | _, .connect _ hop _ _, .operand _, _ => absurd hop (by simp [operatorsAt])
  | _, .unary op d, .unary op' d', h => by
    obtain ⟨hop, hd⟩ := List.cons.inj h
    obtain rfl := UnaryOp.lexeme_injective hop
    rw [d.eq_of_lexemes_eq d' hd]
  | _, .unary op d, .plain d', h => absurd h (Derivation.unary_ne_chain op _ d')
  | _, .plain d, .unary op d', h => absurd h.symm (Derivation.unary_ne_chain op _ d)
  | _, .plain d, .plain d', h => by rw [d.eq_of_lexemes_eq d' h]
  | _, .head d, .head d', h => by rw [d.eq_of_lexemes_eq d' h]
  | _, .head d, .member e _ _ hk, h => absurd h (primary_ne_chain d e (.member hk))
  | _, .head d, .index e k, h => absurd h (primary_ne_chain d e (.index ⟨_, k.derives⟩))
  | _, .head d, .call e args, h => absurd h (primary_ne_chain d e (.call args.derives))
  | _, .member e _ _ hk, .head d, h => absurd h.symm (primary_ne_chain d e (.member hk))
  | _, .index e k, .head d, h => absurd h.symm (primary_ne_chain d e (.index ⟨_, k.derives⟩))
  | _, .call e args, .head d, h => absurd h.symm (primary_ne_chain d e (.call args.derives))
  | _, .member d k name hk, .member d' k' name' hk', h => by
    obtain ⟨hd, htail⟩ := chain_append_inj (.member hk) (.member hk') h
    obtain rfl : k = k' := by simpa using htail
    obtain rfl : name = name' := hk.unique hk'
    rw [d.eq_of_lexemes_eq d' hd]
  | _, .index d k, .index d' k', h => by
    obtain ⟨hd, htail⟩ := chain_append_inj (.index ⟨_, k.derives⟩) (.index ⟨_, k'.derives⟩) h
    have hk : k.lexemes = k'.lexemes := by simpa using htail
    rw [d.eq_of_lexemes_eq d' hd, k.eq_of_lexemes_eq k' hk]
  | _, .call d args, .call d' args', h => by
    obtain ⟨hd, htail⟩ := chain_append_inj (.call args.derives) (.call args'.derives) h
    have hargs : args.lexemes = args'.lexemes := by simpa using htail
    rw [d.eq_of_lexemes_eq d' hd, args.eq_of_lexemes_eq args' hargs]
  | _, .member _ _ _ hk, .index _ k, h => by
    cases (chain_append_inj (.member hk) (.index ⟨_, k.derives⟩) h).2
  | _, .member _ _ _ hk, .call _ args, h => by
    cases (chain_append_inj (.member hk) (.call args.derives) h).2
  | _, .index _ k, .member _ _ _ hk, h => by
    cases (chain_append_inj (.index ⟨_, k.derives⟩) (.member hk) h).2
  | _, .index _ k, .call _ args, h => by
    cases (chain_append_inj (.index ⟨_, k.derives⟩) (.call args.derives) h).2
  | _, .call _ args, .member _ _ _ hk, h => by
    cases (chain_append_inj (.call args.derives) (.member hk) h).2
  | _, .call _ args, .index _ k, h => by
    cases (chain_append_inj (.call args.derives) (.index ⟨_, k.derives⟩) h).2
  | _, .leaf l e hl, .leaf l' e' hl', h => by
    obtain rfl : l = l' := by simpa [Derivation.lexemes] using h
    obtain rfl := hl.unique hl'
    rfl
  | _, .leaf l e hl, .group d, h => by simp [Derivation.lexemes] at h
  | _, .leaf l e hl, .array items, h => by simp [Derivation.lexemes] at h
  | _, .group d, .leaf l e hl, h => by simp [Derivation.lexemes] at h
  | _, .array items, .leaf l e hl, h => by simp [Derivation.lexemes] at h
  | _, .group d, .group d', h => by
    have hd : d.lexemes = d'.lexemes := by simpa [Derivation.lexemes] using h
    rw [d.eq_of_lexemes_eq d' hd]
  | _, .group d, .array items, h => by simp [Derivation.lexemes] at h
  | _, .array items, .group d, h => by simp [Derivation.lexemes] at h
  | _, .array items, .array items', h => by
    have hitems : items.lexemes = items'.lexemes := by simpa [Derivation.lexemes] using h
    rw [items.eq_of_lexemes_eq items' hitems]

theorem DerivationItems.eq_of_lexemes_eq :
    (ds ds' : DerivationItems) → ds.lexemes = ds'.lexemes → ds = ds'
  | .nil, .nil, _ => rfl
  | .nil, .last d, h => absurd h.symm d.lexemes_ne_nil
  | .nil, .more d items, h => by simp [DerivationItems.lexemes] at h
  | .last d, .nil, h => absurd h d.lexemes_ne_nil
  | .more d items, .nil, h => by simp [DerivationItems.lexemes] at h
  | .last d, .last d', h => by rw [d.eq_of_lexemes_eq d' h]
  | .last d, .more d' items, h => by
    obtain ⟨-, hrest⟩ := expression_unique d.derives d'.derives (by simp) (by simp)
      ((List.append_nil _).trans h)
    cases hrest
  | .more d items, .last d', h => by
    obtain ⟨-, hrest⟩ := expression_unique d.derives d'.derives (by simp) (by simp)
      (h.trans (List.append_nil _).symm)
    cases hrest
  | .more d items, .more d' items', h => by
    obtain ⟨hd, hrest⟩ := expression_unique d.derives d'.derives (by simp) (by simp) h
    rw [d.eq_of_lexemes_eq d' hd,
      items.eq_of_lexemes_eq items' (List.cons.inj hrest).2]

end

/-- A row spells one tree at most. -/
theorem Derives.unique {x : Nonterminal} {ls : List Lexeme} {t u : Expr Unit}
    (ht : Derives x ls t) (hu : Derives x ls u) : t = u := by
  obtain ⟨d, hd, rfl⟩ := ht.exists_derivation
  obtain ⟨d', hd', rfl⟩ := hu.exists_derivation
  rw [d.eq_of_lexemes_eq d' (hd.trans hd'.symm)]

end Grammar

end SigilExpr
