import SigilExpr.Proofs.Syntax.Tokens
import SigilExpr.Proofs.Syntax.Unambiguity

/-!
# The parser accepts what the grammar derives

Within a limit the parser accepts exactly the phrases with no more nesting and no greater height
than the limit. With a limit that is not below the number of the tokens, this is all that the
grammar derives, and the tree is that of the derivation.
-/

set_option autoImplicit false

namespace SigilExpr

open Grammar SigilExpr.Parser

namespace Grammar

/-- The lexemes that stand in the rules of the grammar. -/
inductive Terminal : Lexeme → Prop where
  | unary (op : UnaryOp) : Terminal op.lexeme
  | connective (op : Connective) : Terminal op.lexeme
  | property {l name} : PropertyName l name → Terminal l
  | leaf {l} {e : Expr Unit} : Leaf () l e → Terminal l
  | symbol {l} : l ∈ [.question, .colon, .dot, .lbracket, .rbracket, .lparen, .rparen, .comma] →
      Terminal l

mutual

theorem Derives.terminal {x : Nonterminal} {ls : List Lexeme} {e : Expr Unit} :
    Derives x ls e → ∀ l ∈ ls, Terminal l
  | .test h | .tighter _ h | .operand h | .plain h | .head h => h.terminal
  | .choice ht ha hb => by
    simp only [List.forall_mem_append, List.forall_mem_cons]
    exact ⟨ht.terminal, .symbol (by simp), ha.terminal, .symbol (by simp), hb.terminal⟩
  | .connect op _ hl hr => by
    simp only [List.forall_mem_append, List.forall_mem_cons]
    exact ⟨hl.terminal, .connective op, hr.terminal⟩
  | .unary op h => List.forall_mem_cons.2 ⟨.unary op, h.terminal⟩
  | .member h hk => by
    simp only [List.forall_mem_append, List.forall_mem_cons]
    exact ⟨h.terminal, .symbol (by simp), .property hk, by simp⟩
  | .index h hk => by
    simp only [List.forall_mem_append, List.forall_mem_cons]
    exact ⟨h.terminal, .symbol (by simp), hk.terminal, .symbol (by simp), by simp⟩
  | .call h hes => by
    simp only [List.forall_mem_append, List.forall_mem_cons]
    exact ⟨h.terminal, .symbol (by simp), hes.terminal, .symbol (by simp), by simp⟩
  | .leaf h => List.forall_mem_singleton.2 (.leaf h)
  | .group h => by
    simp only [List.forall_mem_append, List.forall_mem_cons]
    exact ⟨.symbol (by simp), h.terminal, .symbol (by simp), by simp⟩
  | .array hes => by
    simp only [List.forall_mem_append, List.forall_mem_cons]
    exact ⟨.symbol (by simp), hes.terminal, .symbol (by simp), by simp⟩

theorem DerivesItems.terminal {ls : List Lexeme} {es : List (Expr Unit)} :
    DerivesItems ls es → ∀ l ∈ ls, Terminal l
  | .nil => by simp
  | .last h => h.terminal
  | .more h hes => by
    simp only [List.forall_mem_append, List.forall_mem_cons]
    exact ⟨h.terminal, .symbol (by simp), hes.terminal⟩

end

theorem Terminal.ne_eof {l : Lexeme} (h : Terminal l) : l ≠ .eof := by
  cases h with
  | unary op => exact op.lexeme_ne_eof
  | connective op => exact op.lexeme_ne_eof
  | property h => exact h.ne_eof
  | leaf h => exact h.ne_eof
  | symbol h =>
    rintro rfl
    simp at h

theorem Derives.eof_notMem {x : Nonterminal} {ls : List Lexeme} {e : Expr Unit}
    (h : Derives x ls e) : Lexeme.eof ∉ ls :=
  fun heof => (h.terminal _ heof).ne_eof rfl

/-- The lexemes of a row of tokens up to the end. -/
def beforeEnd (tokens : List Token) : List Lexeme :=
  (tokens.map Token.lexeme).takeWhile fun l => l ≠ .eof

theorem beforeEnd_append {ts us : List Token} {t : Token} (ht : t.lexeme = .eof)
    (hts : Lexeme.eof ∉ ts.map Token.lexeme) :
    beforeEnd (ts ++ t :: us) = ts.map Token.lexeme := by
  have hpos : ∀ l ∈ ts.map Token.lexeme, decide (l ≠ .eof) = true := by
    intro l hl
    have hne : l ≠ .eof := fun h => hts (h ▸ hl)
    simpa using hne
  rw [beforeEnd, List.map_append, List.takeWhile_append_of_pos hpos]
  simp [ht]

end Grammar

theorem parse_eq_ok_iff {limit : Nat} {tokens : List Token} {e : SourceExpr} :
    parse limit tokens = .ok e ↔
      ∃ c, descend limit limit .expression (.ofTokens tokens) = .ok (e, c) ∧ c.lexeme = .eof := by
  simp only [parse, bind_eq_ok_iff, Prod.exists]
  constructor
  · rintro ⟨e', c, h, hc⟩
    split at hc
    · next hl =>
      obtain rfl := Except.ok.inj hc
      exact ⟨c, h, hl⟩
    · cases hc
    · cases hc
    · cases hc
  · rintro ⟨c, h, hl⟩
    exact ⟨e, c, h, by rw [hl]⟩

/-- What the parser accepts within a limit, nothing being large enough to be taken for granted. -/
theorem parse_eq_ok_iff_phrase {limit : Nat} {ts : List Token} {t : Token} {e : SourceExpr}
    (ht : t.lexeme = .eof) (hts : Lexeme.eof ∉ ts.map Token.lexeme) :
    parse limit (ts ++ [t]) = .ok e ↔ Phrase limit .expression ts e ∧ e.height ≤ limit := by
  rw [parse_eq_ok_iff]
  constructor
  · rintro ⟨c, h, hc⟩
    obtain ⟨us, hp, hph, hh⟩ := (descend_reads limit limit).1 h
    have hus : Lexeme.eof ∉ us.map Token.lexeme := hph.derives.eof_notMem
    have hrest : ts ++ [t] = us ++ c.rest := hp.rest
    cases hr : c.rest with
    | nil =>
      refine absurd ?_ hus
      rw [hr, List.append_nil] at hrest
      rw [← hrest, ← ht]
      simp
    | cons r rs =>
      have hl : r.lexeme = .eof := by rw [← Cursor.next_of_rest hr]; exact hc
      have hmap : ts.map Token.lexeme = us.map Token.lexeme := by
        have hbody : beforeEnd (ts ++ [t]) = ts.map Token.lexeme := beforeEnd_append ht hts
        rw [← hbody, hrest, hr, beforeEnd_append hl hus]
      have hlen : ts.length = us.length := by simpa using congrArg List.length hmap
      obtain rfl := (List.append_inj hrest hlen).1
      exact ⟨hph, hh⟩
  · rintro ⟨hph, hh⟩
    let d : Cursor := ⟨(ts.getLast?.map Token.span).getD ⟨0, 0⟩, [t], 1, rfl⟩
    have hp : (Cursor.ofTokens (ts ++ [t])).Passes ts d := ⟨rfl, rfl⟩
    have hd : d.lexeme = .eof := ht
    exact ⟨d, hph.completes hh hp (ends_of_mem (by simp [hd]) 0) (by simp [hd]), hd⟩

theorem Token.Ended.exists_body {tokens : List Token} (h : Token.Ended tokens) :
    ∃ ts t, tokens = ts ++ [t] ∧ t.lexeme = .eof ∧ Lexeme.eof ∉ ts.map Token.lexeme ∧
      beforeEnd tokens = ts.map Token.lexeme := by
  obtain ⟨ts, t, rfl, ht, hts⟩ := h
  have hne : Lexeme.eof ∉ ts.map Token.lexeme := by
    simpa using fun u hu => hts u hu
  exact ⟨ts, t, rfl, ht, hne, beforeEnd_append ht hne⟩

theorem derives_of_parse {limit : Nat} {tokens : List Token} {e : SourceExpr}
    (hend : Token.Ended tokens) (h : parse limit tokens = .ok e) :
    Derives .expression (beforeEnd tokens) e.bare := by
  obtain ⟨ts, t, rfl, ht, hne, hbody⟩ := hend.exists_body
  rw [hbody]
  exact ((parse_eq_ok_iff_phrase ht hne).1 h).1.derives

theorem parse_of_derives {limit : Nat} {tokens : List Token} {t : Expr Unit}
    (hend : Token.Ended tokens) (hlimit : tokens.length ≤ limit)
    (h : Derives .expression (beforeEnd tokens) t) :
    ∃ e, parse limit tokens = .ok e ∧ e.bare = t := by
  obtain ⟨ts, u, rfl, hu, hne, hbody⟩ := hend.exists_body
  rw [hbody] at h
  rw [List.length_append, List.length_singleton] at hlimit
  obtain ⟨e, hph, rfl, hh⟩ := marked_of_derives (n := limit) h rfl hlimit
  exact ⟨e, (parse_eq_ok_iff_phrase hu hne).2 ⟨hph, by omega⟩, rfl⟩

/-- The parser accepts what the grammar derives, with the tree of the derivation, and there is one
derivation at most. Within any limit it accepts nothing else, and a limit that is not below the
number of the tokens refuses nothing. -/
theorem parse_accepts_iff_derives {source : List Char} {tokens : List Token}
    (h : Token.ofSource source = .ok tokens) :
    (∀ limit e, parse limit tokens = .ok e →
      ∃ d : Derivation .expression, d.lexemes = beforeEnd tokens ∧ d.tree = e.bare) ∧
    (∀ limit, tokens.length ≤ limit → ∀ t : Expr Unit,
      (∃ e, parse limit tokens = .ok e ∧ e.bare = t) ↔
        ∃ d : Derivation .expression, d.lexemes = beforeEnd tokens ∧ d.tree = t) ∧
    ∀ d d' : Derivation .expression, d.lexemes = beforeEnd tokens →
      d'.lexemes = beforeEnd tokens → d = d' := by
  have hend := Token.ended_of_ofSource h
  refine ⟨fun limit e he => (derives_of_parse hend he).exists_derivation,
    fun limit hlimit t => ?_, fun d d' hd hd' => d.eq_of_lexemes_eq d' (hd.trans hd'.symm)⟩
  rw [← derives_iff_exists_derivation]
  constructor
  · rintro ⟨e, he, rfl⟩
    exact derives_of_parse hend he
  · exact parse_of_derives hend hlimit

/-- An operator before an operand, one that is a word, and a comma after the last item. -/
theorem parse_accepts_iff_derives_sample :
    ∃ tokens e, Token.ofSource "-a in [b,]".toList = .ok tokens ∧ tokens.length ≤ 8 ∧
      parse 8 tokens = .ok e ∧
      ∃ d : Derivation .expression, d.lexemes = beforeEnd tokens ∧ d.tree = e.bare ∧
        (∃ f, parse 8 tokens = .ok f ∧ f.bare = d.tree) ∧
        ∀ d' : Derivation .expression, d'.lexemes = beforeEnd tokens → d' = d := by
  have hs : Token.ofSource "-a in [b,]".toList =
      .ok [⟨.minus, ⟨0, 1⟩⟩, ⟨.ident "a", ⟨1, 2⟩⟩, ⟨.ident "in", ⟨3, 5⟩⟩, ⟨.lbracket, ⟨6, 7⟩⟩,
        ⟨.ident "b", ⟨7, 8⟩⟩, ⟨.comma, ⟨8, 9⟩⟩, ⟨.rbracket, ⟨9, 10⟩⟩, ⟨.eof, ⟨10, 10⟩⟩] := rfl
  obtain ⟨sound, iff, unique⟩ := parse_accepts_iff_derives hs
  let e : SourceExpr :=
    .binary ⟨⟨0, 10⟩, 3⟩ .isIn (.unary ⟨⟨0, 2⟩, 2⟩ .neg (.ident ⟨⟨1, 2⟩, 1⟩ "a"))
      (.array ⟨⟨6, 10⟩, 2⟩ [.ident ⟨⟨7, 8⟩, 1⟩ "b"])
  obtain ⟨d, hd, htree⟩ := sound 8 e rfl
  exact ⟨_, e, hs, Nat.le_refl 8, rfl, d, hd, htree, (iff 8 (Nat.le_refl 8) _).2 ⟨d, hd, rfl⟩,
    fun d' hd' => unique d' d hd' hd⟩

end SigilExpr
