import SigilExpr.Proofs.Checked.Lexer
import SigilExpr.Proofs.Checked.Parser
import SigilExpr.Expr.Source

/-!
# No trap

The parser by positions does what the parser that goes along the tokens does, in every part. Each
round of a loop and each nested call moves over a token, so there are never more of them than there
are tokens; and no tree within the limit and no depth of nesting is too large to be counted.
-/

set_option autoImplicit false

namespace SigilExpr

namespace Checked

namespace Input

variable {input : Input} {i j k : Nat} {c : Cursor}

theorem Simulates.mono {step : Parser.Step} {step' : Step}
    (h : input.Simulates i step step') (hij : i ≤ j) : input.Simulates j step step' :=
  fun _ _ hj => h (Nat.le_trans hij hj)

theorem climb_follows (hs : input.Sound) {step : Parser.Step} {step' : Step} :
    ∀ {rounds fuel i j least start : Nat} {c : Cursor} {left : SourceExpr},
      input.Simulates (i + 1) step step' → i < j → input.At j c → input.Low left →
      input.tokens.length ≤ rounds + j → c.count ≤ fuel →
      Follows input.Marks (input.Arrives input.Low (i + 1))
        (Parser.climb input.limit step fuel least start left c)
        (input.climb step' rounds least start left j) := by
  intro rounds
  induction rounds with
  | zero =>
    intro fuel i j least start c left _ _ h _ hrounds _
    have hlt := h.lt
    omega
  | succ rounds ih =>
    intro fuel i j least start c left hstep hj h hleft hrounds hfuel
    have hpos := h.count_pos
    have hcount := h.count_eq
    obtain ⟨fuel, rfl⟩ : ∃ k, fuel = k + 1 := ⟨fuel - 1, by omega⟩
    rw [Parser.climb, climb]
    refine follows_token h ?_
    rw [Cursor.lexeme]
    cases hop : c.next.lexeme.connective? with
    | none => exact ⟨_, rfl, rfl, hleft, hj, h⟩
    | some op =>
      have hlexeme : c.lexeme = op.lexeme := Lexeme.connective?_eq_some_iff.1 hop
      dsimp only
      split
      · exact ⟨_, rfl, rfl, hleft, hj, h⟩
      refine follows_advance hs h (hlexeme ▸ op.lexeme_ne_eof) fun h => follows_token h ?_
      refine (hstep (Nat.le_succ_of_le hj) h).bind ?_
      rintro ⟨right, d⟩ ⟨_, k⟩ ⟨rfl, hright, hk, hd⟩
      have hle : c.advance.count ≤ fuel := Nat.pred_le_of_le_succ hfuel
      have hfuel₁ : d.count ≤ fuel := Nat.le_trans (h.count_le hd (Nat.le_of_succ_le hk)) hle
      -- the loop of the right operand moves on from the token at `j + 1`
      have hdeep : input.Simulates (j + 1 + 1) step step' := hstep.mono (by omega)
      dsimp only at hk
      refine (ih hdeep hk hd hright (by omega) hfuel₁).bind ?_
      rintro ⟨right, d⟩ ⟨_, k⟩ ⟨rfl, hright, hk, hd⟩
      refine (finish_follows hs hd (i := k) (Nat.le_refl k) (by omega) (by simp [hleft, hright])
        (by cases op <;> exact fun _ => rfl)).bind ?_
      rintro ⟨left, d⟩ ⟨_, m⟩ ⟨rfl, hleft, hm, hd⟩
      dsimp only at hk hm
      have hfuel₂ : d.count ≤ fuel := Nat.le_trans (h.count_le hd (by omega)) hle
      exact ih hstep (by omega) hd hleft (by omega) hfuel₂

theorem binary_follows (hs : input.Sound) {step : Parser.Step} {step' : Step}
    (hstep : input.Simulates i step step') (least : Nat) :
    input.Simulates i (Parser.binary input.limit step least) (input.binary step' least) := by
  intro j c hj h
  refine follows_token h ((hstep hj h).bind ?_)
  rintro ⟨left, d⟩ ⟨_, k⟩ ⟨rfl, hleft, hk, hd⟩
  have hlength := hs.length_le
  have hfuel : d.count ≤ c.count := h.count_le hd (Nat.le_of_succ_le hk)
  exact climb_follows hs (hstep.mono (Nat.le_succ_of_le hj)) hk hd hleft (by omega) hfuel

section Deeper

variable {inner : Parser.Step} {inner' : Step}

theorem items_follows (hs : input.Sound) (hi : input.Simulates i inner inner') {close : Lexeme}
    (hclose : close ≠ .eof) (missing : Missing) :
    ∀ {rounds fuel j : Nat} {c : Cursor}, i ≤ j → input.At j c →
      input.tokens.length ≤ rounds + j → c.count ≤ fuel →
      Follows input.Marks (input.Arrives (fun es => ∀ e ∈ es, input.Low e) i)
        (Parser.items inner close missing fuel c)
        (input.items inner' close missing rounds j) := by
  intro rounds
  induction rounds with
  | zero =>
    intro fuel j c _ h hrounds _
    have hlt := h.lt
    omega
  | succ rounds ih =>
    intro fuel j c hj h hrounds hfuel
    have hpos := h.count_pos
    have hcount := h.count_eq
    obtain ⟨fuel, rfl⟩ : ∃ k, fuel = k + 1 := ⟨fuel - 1, by omega⟩
    rw [Parser.items, items]
    refine follows_token h ?_
    rw [Cursor.lexeme]
    by_cases hl : c.next.lexeme = close
    · rw [if_pos hl, if_pos hl]
      refine follows_advance hs h (by rwa [Cursor.lexeme, hl]) fun h => ?_
      exact ⟨_, rfl, rfl, by simp, Nat.le_succ_of_le hj, h⟩
    rw [if_neg hl, if_neg hl]
    refine (hi hj h).bind ?_
    rintro ⟨e, d⟩ ⟨_, k⟩ ⟨rfl, he, hk, hd⟩
    refine follows_token hd ?_
    have hcount' := hd.count_eq
    dsimp only at hk hcount' ⊢
    rw [Cursor.lexeme]
    by_cases hcomma : d.next.lexeme = .comma
    · rw [if_pos hcomma, if_pos hcomma]
      refine follows_advance hs hd (by simp [Cursor.lexeme, hcomma]) fun hd => ?_
      have hcount' := hd.count_eq
      refine (ih (by omega) hd (by omega) (by omega)).bind ?_
      rintro ⟨es, d⟩ ⟨_, m⟩ ⟨rfl, hes, hm, hd⟩
      exact ⟨_, rfl, rfl, List.forall_mem_cons.2 ⟨he, hes⟩, hm, hd⟩
    · rw [if_neg hcomma, if_neg hcomma]
      refine (require_follows hs hd hclose missing).bind ?_
      rintro d m ⟨rfl, hd⟩
      exact ⟨_, rfl, rfl, List.forall_mem_singleton.2 he, by dsimp only; omega, hd⟩

theorem leaf_follows (hs : input.Sound) (h : input.At j c) (hne : c.lexeme ≠ .eof)
    {form : Mark → SourceExpr} (hform : ∀ m, (form m).height = m.height) :
    Follows input.Marks (input.Arrives input.Low (j + 1))
      (Parser.finish input.limit c.start c.advance [] form) (input.leaf j form) :=
  follows_token h (follows_advance hs h hne fun h =>
    finish_follows hs h (Nat.le_refl _) (Nat.succ_pos j) (by simp) hform)

theorem primary_follows (hs : input.Sound) (hi : input.Simulates (i + 1) inner inner') :
    input.Simulates i (Parser.primary input.limit inner) (input.primary inner') := by
  intro j c hj h
  unfold Parser.primary primary
  refine follows_token h ?_
  dsimp only
  rw [Cursor.lexeme]
  have hlength := hs.length_le
  cases hl : c.next.lexeme with
  | number x | string s | bool b | null =>
    exact leaf_follows hs h (by simp [Cursor.lexeme, hl]) fun _ => rfl
  | ident name =>
    dsimp only
    split
    · exact follows_raise hs h.getElem?_eq rfl (by rintro _ _ ⟨⟩)
    · exact leaf_follows hs h (by simp [Cursor.lexeme, hl]) fun _ => rfl
  | lparen =>
    refine follows_advance hs h (by simp [Cursor.lexeme, hl]) fun h => ?_
    refine (hi (Nat.succ_le_succ hj) h).bind ?_
    rintro ⟨e, d⟩ ⟨_, k⟩ ⟨rfl, he, hk, hd⟩
    refine (require_follows hs hd (by simp) .groupEnd).bind ?_
    rintro d m ⟨rfl, hd⟩
    dsimp only at hk
    simp only [hd.previousStop_eq]
    exact ⟨_, rfl, rfl, by rwa [Low, Parser.height_withNote], by dsimp only; omega, hd⟩
  | lbracket =>
    refine follows_advance hs h (by simp [Cursor.lexeme, hl]) fun hd => ?_
    have hcount := h.count_eq
    have hcount' := hd.count_eq
    refine (items_follows hs (hi.mono (Nat.succ_le_succ hj)) (by simp) .arrayEnd (Nat.le_refl _) hd
      (by omega) (by omega)).bind ?_
    rintro ⟨es, d⟩ ⟨_, k⟩ ⟨rfl, hes, hk, hd⟩
    exact finish_follows hs hd hk (by dsimp only at hk; omega) hes fun _ => rfl
  | eof => exact malformed_follows hs h.getElem?_eq
  | _ => exact misplaced_follows hs h .operand

theorem suffixes_follows (hs : input.Sound) (hi : input.Simulates (i + 1) inner inner')
    (start : Nat) :
    ∀ {rounds fuel j : Nat} {c : Cursor} {e : SourceExpr}, i < j → input.At j c →
      input.Low e → input.tokens.length ≤ rounds + j → c.count ≤ fuel →
      Follows input.Marks (input.Arrives input.Low (i + 1))
        (Parser.suffixes input.limit inner start fuel e c)
        (input.suffixes inner' start rounds e j) := by
  intro rounds
  induction rounds with
  | zero =>
    intro fuel j c e _ h _ hrounds _
    have hlt := h.lt
    omega
  | succ rounds ih =>
    intro fuel j c e hj h he hrounds hfuel
    have hpos := h.count_pos
    have hcount := h.count_eq
    have hlength := hs.length_le
    obtain ⟨fuel, rfl⟩ : ∃ k, fuel = k + 1 := ⟨fuel - 1, by omega⟩
    -- What is left once the suffix has been read, up to position `k`.
    have loop : ∀ {k : Nat} {d : Cursor} {es : List SourceExpr} {form : Mark → SourceExpr},
        j < k → input.At k d → (∀ e ∈ es, input.Low e) → (∀ m, (form m).height = m.height) →
        Follows input.Marks (input.Arrives input.Low (i + 1))
          (Parser.finish input.limit start d es form >>= fun found =>
            Parser.suffixes input.limit inner start fuel found.1 found.2)
          (input.finish start k es form >>= fun found =>
            input.suffixes inner' start rounds found.1 found.2) := by
      intro k d es form hk hd hes hform
      refine (finish_follows hs hd (i := k) (Nat.le_refl k) (by omega) hes hform).bind ?_
      rintro ⟨e, d⟩ ⟨_, m⟩ ⟨rfl, he, hm, hd⟩
      have hcount' := hd.count_eq
      dsimp only at hm hcount' ⊢
      exact ih (by omega) hd he (by omega) (by omega)
    rw [Parser.suffixes, suffixes]
    refine follows_token h ?_
    rw [Cursor.lexeme]
    cases hl : c.next.lexeme with
    | dot =>
      refine follows_advance hs h (by simp [Cursor.lexeme, hl]) fun h => ?_
      refine follows_token h ?_
      dsimp only
      rw [Cursor.lexeme]
      cases hname : c.advance.next.lexeme.propertyName? with
      | none => exact misplaced_follows hs h .propertyName
      | some name =>
        have hne : c.advance.lexeme ≠ .eof := by
          rintro heof
          rw [← Cursor.lexeme, heof] at hname
          cases hname
        refine follows_advance hs h hne fun h => ?_
        exact loop (by omega) h (by simpa using he) fun _ => rfl
    | lbracket =>
      refine follows_advance hs h (by simp [Cursor.lexeme, hl]) fun h => ?_
      refine (hi (Nat.le_succ_of_le hj) h).bind ?_
      rintro ⟨key, d⟩ ⟨_, k⟩ ⟨rfl, hkey, hk, hd⟩
      refine (require_follows hs hd (by simp) .keyEnd).bind ?_
      rintro d m ⟨rfl, hd⟩
      dsimp only at hk
      exact loop (by omega) hd (by simp [he, hkey]) fun _ => rfl
    | lparen =>
      refine follows_advance hs h (by simp [Cursor.lexeme, hl]) fun hd => ?_
      have hcount' := hd.count_eq
      refine (items_follows hs (hi.mono (Nat.le_succ_of_le hj)) (by simp) .argumentsEnd
        (Nat.le_refl _) hd (by omega) (by omega)).bind ?_
      rintro ⟨args, d⟩ ⟨_, k⟩ ⟨rfl, hargs, hk, hd⟩
      exact loop hk hd (List.forall_mem_cons.2 ⟨he, hargs⟩) fun _ => rfl
    | _ => exact ⟨_, rfl, rfl, he, hj, h⟩

theorem operand_follows (hs : input.Sound) {deeper : Parser.Step} {deeper' : Step}
    (hd : input.Simulates (i + 1) deeper deeper') (hi : input.Simulates (i + 1) inner inner') :
    input.Simulates i (Parser.operand input.limit deeper inner) (input.operand deeper' inner') := by
  intro j c hj h
  unfold Parser.operand operand
  refine follows_token h ?_
  rw [Cursor.lexeme]
  cases hop : c.next.lexeme.unary? with
  | some op =>
    have hne : c.lexeme ≠ .eof := by
      rw [Lexeme.unary?_eq_some_iff (l := c.lexeme).1 hop]
      exact op.lexeme_ne_eof
    refine follows_advance hs h hne fun h => (hd (Nat.succ_le_succ hj) h).bind ?_
    rintro ⟨e, d⟩ ⟨_, k⟩ ⟨rfl, he, hk, hd⟩
    dsimp only at hk
    exact finish_follows hs hd (by omega) (by omega) (by simpa using he) fun _ => rfl
  | none =>
    dsimp only
    split
    · exact misplaced_follows hs h .startOfOperand
    · refine (primary_follows hs hi hj h).bind ?_
      rintro ⟨e, d⟩ ⟨_, k⟩ ⟨rfl, he, hk, hd⟩
      have hlength := hs.length_le
      exact suffixes_follows hs (hi.mono (Nat.succ_le_succ hj)) _ hk hd he (by omega)
        (Nat.le_refl _)

theorem conditional_follows (hs : input.Sound) {test : Parser.Step} {test' : Step}
    (ht : input.Simulates i test test') (hi : input.Simulates (i + 1) inner inner') :
    input.Simulates i (Parser.conditional input.limit test inner)
      (input.conditional test' inner') := by
  intro j c hj h
  unfold Parser.conditional conditional
  refine follows_token h ((ht hj h).bind ?_)
  rintro ⟨t, d⟩ ⟨_, k⟩ ⟨rfl, ht, hk, hd⟩
  refine follows_token hd ?_
  dsimp only at hk ⊢
  rw [Cursor.lexeme]
  by_cases hq : d.next.lexeme = .question
  · rw [if_pos hq, if_pos hq]
    refine follows_advance hs hd (by simp [Cursor.lexeme, hq]) fun hd => ?_
    refine (hi (by omega) hd).bind ?_
    rintro ⟨a, d⟩ ⟨_, m⟩ ⟨rfl, ha, hm, hd⟩
    refine (require_follows hs hd (by simp) .colon).bind ?_
    rintro d m ⟨rfl, hd⟩
    dsimp only at hm
    refine (hi (by omega) hd).bind ?_
    rintro ⟨b, d⟩ ⟨_, m⟩ ⟨rfl, hb, hm', hd⟩
    dsimp only at hm'
    exact finish_follows hs hd (by omega) (by omega) (by simp [ht, ha, hb]) fun _ => rfl
  · rw [if_neg hq, if_neg hq]
    exact ⟨_, rfl, rfl, ht, hk, hd⟩

end Deeper

/-- By induction on the nested calls, of which there are as many as there are tokens to be read. -/
theorem descend_follows (hs : input.Sound) :
    ∀ {frames depth i : Nat} (goal : Parser.Goal), depth ≤ input.limit →
      input.tokens.length ≤ frames + i →
      input.Simulates i (Parser.descend input.limit (input.limit - depth) goal)
        (input.descend frames depth goal) := by
  intro frames
  induction frames with
  | zero =>
    intro depth i goal _ hframes j c hj h
    have hlt := h.lt
    omega
  | succ frames ih =>
    intro depth i goal hdepth hframes j c hj h
    have hcounter : depth + 1 ≤ input.largest := Nat.le_trans (Nat.succ_le_succ hdepth) hs.limit_lt
    unfold descend
    simp only [counter_eq_ok hcounter, bind, Except.bind]
    by_cases hlimit : input.limit < depth + 1
    · rw [if_pos hlimit, show input.limit - depth = 0 by omega]
      exact malformed_follows hs h.getElem?_eq
    · rw [if_neg hlimit, show input.limit - depth = input.limit - (depth + 1) + 1 by omega]
      have hdeep : depth + 1 ≤ input.limit := Nat.le_of_not_lt hlimit
      have hframes : input.tokens.length ≤ frames + (i + 1) := by omega
      have hinner := ih .expression hdeep hframes
      have hdeeper := ih .operand hdeep hframes
      have hoperand := operand_follows hs hdeeper hinner
      cases goal with
      | operand => exact hoperand hj h
      | expression => exact conditional_follows hs (binary_follows hs hoperand 1) hinner hj h

theorem whole_follows (hs : input.Sound) :
    Follows input.Marks (fun e b => b.1 = e) (parse input.limit input.tokens) input.whole := by
  unfold parse whole
  have hlength := hs.length_le
  refine (descend_follows hs .expression (Nat.zero_le input.limit) (by omega) (Nat.zero_le 0)
    (at_ofTokens hs)).bind ?_
  rintro ⟨e, d⟩ ⟨_, k⟩ ⟨rfl, he, hk, hd⟩
  refine follows_token hd ?_
  dsimp only
  rw [Cursor.lexeme]
  cases d.next.lexeme with
  | eof => exact ⟨_, rfl, rfl⟩
  | comma | semicolon => exact malformed_follows hs hd.getElem?_eq
  | _ => exact misplaced_follows hs hd .afterExpression

end Input

/-- What the tokens of a source are read from, with a round for each token. -/
def inputOf (largest limit : Nat) (source : List Char) (tokens : List Token) : Input :=
  ⟨source, tokens, limit, largest, tokens.length⟩

/-- Reads a source of any length by offsets and positions, the largest count being `largest`. -/
def ofText (largest limit : Nat) (source : List Char) : Except Alarm SourceExpr := do
  let ts ← tokens source (source.length + 1) 0
  let (e, _) ← (inputOf largest limit source ts).whole
  .ok e

def ofSource (largest : Nat) (limits : Limits) (source : List Char) : Except Alarm SourceExpr :=
  let limit := limits.maxSourceLength
  if limit < Text.byteLength source then
    raise source limit (.malformed (.tooLong limit) ⟨limit, limit⟩)
  else ofText largest limits.maxDepth source

section

variable {largest limit : Nat} {source : List Char}

theorem stretch_of_ofSource {tokens : List Token} (h : Token.ofSource source = .ok tokens) :
    ∀ t ∈ tokens, ∃ mid, Text.Stretch source t.span mid := by
  obtain ⟨ts, rfl, hrow⟩ := Token.ofSource_eq_ok_iff.1 h
  refine List.forall_mem_append.2 ⟨?_, List.forall_mem_singleton.2 ⟨[], source, [], ?_, rfl⟩⟩
  · exact hrow.stretch [] [] (by simp) rfl
  · simp

theorem sound_inputOf {tokens : List Token} (hlimit : limit < largest)
    (h : Token.ofSource source = .ok tokens) : (inputOf largest limit source tokens).Sound :=
  ⟨Token.ended_of_ofSource h, stretch_of_ofSource h, hlimit, Nat.le_refl _⟩

theorem ofText_follows (hlimit : limit < largest) (source : List Char) :
    Follows (fun _ f => Quotes source f) (fun e e' => e' = e) (SourceExpr.ofText limit source)
      (ofText largest limit source) := by
  have hsource : source = [] ++ source := rfl
  have htokens : Same id (Token.ofSource source) (tokens source (source.length + 1) 0) :=
    tokens_same hsource rfl (Nat.lt_succ_self _)
  unfold SourceExpr.ofText ofText
  cases h : Token.ofSource source with
  | error f =>
    rw [h] at htokens
    obtain ⟨position, htokens, -⟩ := htokens
    rw [htokens]
    exact ⟨position, rfl, quotes_of_within hsource rfl (Token.fault_of_ofText h)⟩
  | ok ts =>
    rw [h] at htokens
    obtain ⟨ts, htokens, rfl⟩ := htokens
    rw [htokens]
    have hsound := sound_inputOf hlimit h
    have hwhole : Follows _ _ (parse limit ts) _ := Input.whole_follows hsound
    show Follows _ _ (parse limit ts)
      ((inputOf largest limit source ts).whole >>= fun found => .ok found.1)
    cases hparse : parse limit ts with
    | ok e =>
      rw [hparse] at hwhole
      obtain ⟨found, hwhole, rfl⟩ := hwhole
      rw [hwhole]
      exact ⟨_, rfl, rfl⟩
    | error f =>
      rw [hparse] at hwhole
      obtain ⟨position, hwhole, hmarks⟩ := hwhole
      rw [hwhole]
      exact ⟨position, rfl, hmarks.quotes hsound⟩

theorem ofSource_follows {limits : Limits} (hlimit : limits.maxDepth < largest)
    (source : List Char) :
    Follows (fun _ f => Quotes source f) (fun e e' => e' = e) (SourceExpr.ofSource limits source)
      (ofSource largest limits source) := by
  unfold SourceExpr.ofSource ofSource
  dsimp only
  split
  · -- The fault of a source that is too long quotes nothing.
    have hquotes : ∀ n : Nat, Quotes source (.malformed (.tooLong n) ⟨n, n⟩) := by
      rintro n _ _ ⟨⟩ hne
      exact absurd rfl hne
    exact ⟨_, raise_eq_error (hquotes _), hquotes _⟩
  · exact ofText_follows hlimit source

end

end Checked

/-- Reading by byte offsets and token positions, where each cut, each token that is asked for, each
step to the next token, each count and each bound on the rounds is checked, does not run into a
trap: it has the result of reading along the characters and the tokens. The end token is the last
one and no other, each token is a stretch of the source between two boundaries, and so is what a
fault quotes. -/
theorem reading_never_traps {largest : Nat} {limits : Limits} (h : limits.maxDepth < largest)
    (source : List Char) :
    (∀ t, Checked.ofSource largest limits source ≠ .error (.trap t)) ∧
    (∀ e, Checked.ofSource largest limits source = .ok e ↔
      SourceExpr.ofSource limits source = .ok e) ∧
    (∀ f, (∃ position, Checked.ofSource largest limits source = .error (.fault f position)) ↔
      SourceExpr.ofSource limits source = .error f) ∧
    (∀ f, SourceExpr.ofSource limits source = .error f → Checked.Quotes source f) ∧
    ∀ tokens, Token.ofSource source = .ok tokens → Token.Ended tokens ∧
      ∀ t ∈ tokens, ∃ mid, Text.Stretch source t.span mid := by
  have hfollows := Checked.ofSource_follows h source
  have htokens : ∀ tokens, Token.ofSource source = .ok tokens → Token.Ended tokens ∧
      ∀ t ∈ tokens, ∃ mid, Text.Stretch source t.span mid :=
    fun _ h => ⟨Token.ended_of_ofSource h, Checked.stretch_of_ofSource h⟩
  cases hread : SourceExpr.ofSource limits source with
  | ok e =>
    rw [hread] at hfollows
    obtain ⟨_, hchecked, rfl⟩ := hfollows
    rw [hchecked]
    exact ⟨by simp, by simp, by simp, by simp, htokens⟩
  | error f =>
    rw [hread] at hfollows
    obtain ⟨position, hchecked, hquotes⟩ := hfollows
    rw [hchecked]
    refine ⟨by simp, by simp, by simp, ?_, htokens⟩
    rintro _ ⟨⟩
    exact hquotes

/-- The end of a text comes too early behind a blank of three bytes, and a call is read. -/
theorem reading_never_traps_sample :
    ∃ limits : Limits, ∃ e f, limits.maxDepth < UInt64.size - 1 ∧
      (∃ position, Checked.ofSource (UInt64.size - 1) limits "x\u3000+".toList =
        .error (.fault f position)) ∧ f.offset = 5 ∧
      Checked.ofSource (UInt64.size - 1) limits "f(a)".toList = .ok e ∧
      ∀ t, Checked.ofSource (UInt64.size - 1) limits "[".toList ≠ .error (.trap t) := by
  let limits : Limits := ⟨4096, 4⟩
  let e : SourceExpr :=
    .call ⟨⟨0, 4⟩, 2⟩ (.ident ⟨⟨0, 1⟩, 1⟩ "f") [.ident ⟨⟨2, 3⟩, 1⟩ "a"]
  have hlimit : limits.maxDepth < UInt64.size - 1 := by decide
  have he : SourceExpr.ofSource limits "f(a)".toList = .ok e := rfl
  have hf : SourceExpr.ofSource limits "x\u3000+".toList =
      .error (.malformed (.endOfExpression none) ⟨5, 5⟩) := rfl
  obtain ⟨-, -, faults, -⟩ := reading_never_traps hlimit "x\u3000+".toList
  obtain ⟨-, reads, -, -⟩ := reading_never_traps hlimit "f(a)".toList
  obtain ⟨noTrap, -, -, -⟩ := reading_never_traps hlimit "[".toList
  exact ⟨limits, e, _, hlimit, (faults _).2 hf, rfl, (reads e).2 he, noTrap⟩

end SigilExpr
