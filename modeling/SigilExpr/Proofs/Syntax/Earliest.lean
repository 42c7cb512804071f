import SigilExpr.Proofs.Checked.Lookahead
import SigilExpr.Proofs.Syntax.Failures
import SigilExpr.Proofs.Syntax.Limits

/-!
# Faults are found at the earliest token

The tokens before a fault are the first ones of some source that is an expression: a few words can
be put behind them. With the token of the fault they are not, for the parser would have to fail over
that other source at the same place, before it comes to what is different there.
-/

set_option autoImplicit false

namespace SigilExpr

open Grammar Text

/-- The row is the beginning of the lexemes of a source that is an expression, the end included. -/
def Viable (ls : List Lexeme) : Prop :=
  ∃ source tokens limit e, Token.ofSource source = .ok tokens ∧ parse limit tokens = .ok e ∧
    ls <+: tokens.map Token.lexeme

section

variable {ls ms more : List Lexeme} {l : Lexeme} {ts before after : List Token} {t : Token}

theorem Viable.of_isPrefix (h : Viable ms) (hls : ls <+: ms) : Viable ls := by
  obtain ⟨source, tokens, limit, e, hs, he, hms⟩ := h
  exact ⟨source, tokens, limit, e, hs, he, hls.trans hms⟩

/-- Each closer is one character, and it is read as such in front of a blank. -/
theorem exists_scan_of_mem_closers (h : l ∈ closers) :
    ∃ c, isBlank c = false ∧
      ∀ offset rest, Lexeme.scan offset (c :: ' ' :: rest) = .ok (l, 1) := by
  simp only [closers, List.mem_cons, List.not_mem_nil, or_false] at h
  rcases h with rfl | rfl | rfl | rfl
  · exact ⟨'a', by decide, fun _ _ => rfl⟩
  · exact ⟨':', by decide, fun _ _ => rfl⟩
  · exact ⟨')', by decide, fun _ _ => rfl⟩
  · exact ⟨']', by decide, fun _ _ => rfl⟩

/-- Closers can be spelled in a row. -/
theorem exists_row_of_closers (h : ∀ l ∈ more, l ∈ closers) (offset : Nat) :
    ∃ cs us, Token.Row offset cs [] us ∧ us.map Token.lexeme = more := by
  induction more generalizing offset with
  | nil => exact ⟨[], [], .nil, rfl⟩
  | cons l more ih =>
    obtain ⟨hl, hmore⟩ := List.forall_mem_cons.1 h
    obtain ⟨c, hc, hscan⟩ := exists_scan_of_mem_closers hl
    obtain ⟨cs, us, hrow, rfl⟩ := ih hmore (offset + byteLength [c] + ' '.utf8Size)
    refine ⟨[c] ++ ' ' :: cs, ⟨l, ⟨offset, offset + byteLength [c]⟩⟩ :: us, ?_, rfl⟩
    refine .word (by simp) ?_ (hscan offset _) (.blank (by decide) hrow)
    rintro _ ⟨⟩
    exact hc

/-- The tokens of a text, and behind a blank those of another one. -/
theorem Token.Row.behind_blank {xs rest cs : List Char} {us : List Token}
    (h : Token.Row 0 xs rest ts) (hus : Token.Row (byteLength xs + ' '.utf8Size) cs [] us) :
    Token.Row 0 (xs ++ ' ' :: cs) [] (ts ++ us) := by
  have hmoved : Token.Row 0 xs (' ' :: cs ++ []) (ts.map (Token.back 0)) :=
    h.move (.of_blank (by decide) _) rfl
  have hback : Token.back 0 = id := rfl
  rw [hback, List.map_id] at hmoved
  exact hmoved.append (.blank (by decide) (by rwa [Nat.zero_add]))

/-- A beginning that stands in a text stands in a source that is an expression. -/
theorem viable_of_begins {xs rest : List Char} (hrow : Token.Row 0 xs rest ts)
    (h : Begins .expression (ts.map Token.lexeme)) : Viable (ts.map Token.lexeme) := by
  obtain ⟨more, e, hmore, he⟩ := h
  obtain ⟨cs, us, hus, rfl⟩ := exists_row_of_closers hmore (byteLength xs + ' '.utf8Size)
  have hwhole := hrow.behind_blank hus
  have hsource := Token.ofSource_eq_ok_iff.2 ⟨_, rfl, hwhole⟩
  have hbody : beforeEnd (ts ++ us ++ [Token.endAt (byteLength (xs ++ ' ' :: cs))]) = _ :=
    beforeEnd_append rfl hwhole.eof_notMem
  rw [List.map_append] at hbody
  obtain ⟨e', he', -⟩ := parse_of_derives (Token.ended_of_ofSource hsource) (Nat.le_refl _)
    (hbody ▸ he)
  refine ⟨_, _, _, e', hsource, he', ?_⟩
  rw [List.map_append, List.map_append, List.append_assoc]
  exact List.prefix_append _ _

/-- A viable row is a beginning of the tokens of a text before its end, or they are all of it. -/
theorem Viable.exists_row (h : Viable ls) :
    ∃ xs ts e, Token.Row 0 xs [] ts ∧ Derives .expression (ts.map Token.lexeme) e ∧
      (ls = ts.map Token.lexeme ++ [.eof] ∨ ls <+: ts.map Token.lexeme) := by
  obtain ⟨source, tokens, limit, e, hs, he, hls⟩ := h
  obtain ⟨ts, rfl, hrow⟩ := Token.ofSource_eq_ok_iff.1 hs
  have hderives := derives_of_parse (Token.ended_of_ofSource hs) he
  rw [beforeEnd_append rfl hrow.eof_notMem] at hderives
  rw [List.map_append] at hls
  exact ⟨source, ts, _, hrow, hderives, List.prefix_concat_iff.1 hls⟩

/-- Behind a viable row an operand is due where a string is viable. -/
theorem due_eq_of_viable_string {s : String} (h : Viable (ls ++ [.string s])) :
    Due.operand.after ls = .operand := by
  obtain ⟨xs, ts, e, -, he, heq | ⟨more, hmore⟩⟩ := h.exists_row
  · cases List.append_inj_right' heq rfl
  · have hsit := he.stringsSit
    rw [← hmore] at hsit
    simp only [stringsSit_append, stringsSit_cons] at hsit
    exact hsit.1.2.1 s rfl

/-- A row of tokens has at most one token where it is no longer viable. -/
theorem eq_of_viable {tokens before' after' : List Token} {t' : Token}
    (h : tokens = before ++ t :: after) (h' : tokens = before' ++ t' :: after')
    (hviable : Viable (before.map Token.lexeme))
    (hnot : ¬ Viable ((before ++ [t]).map Token.lexeme))
    (hviable' : Viable (before'.map Token.lexeme))
    (hnot' : ¬ Viable ((before' ++ [t']).map Token.lexeme)) : before' = before := by
  -- Of two such places the earlier one would be within the viable row before the later one.
  rcases List.append_eq_append_iff.1 (h.symm.trans h') with ⟨us, rfl, hus⟩ | ⟨us, rfl, hus⟩
  · cases us with
    | nil => exact List.append_nil before
    | cons u us =>
      obtain ⟨rfl, -⟩ := List.cons.inj hus
      exact absurd (hviable'.of_isPrefix ⟨us.map Token.lexeme, by simp⟩) hnot
  · cases us with
    | nil => exact (List.append_nil before').symm
    | cons u us =>
      obtain ⟨rfl, -⟩ := List.cons.inj hus
      exact absurd (hviable.of_isPrefix ⟨us.map Token.lexeme, by simp⟩) hnot'

theorem Token.Ended.of_map_eq {us : List Token} (h : Token.Ended ts)
    (hmap : us.map Token.lexeme = ts.map Token.lexeme) : Token.Ended us := by
  obtain ⟨body, last, rfl, hlast, hbody⟩ := h
  rw [List.map_append] at hmap
  obtain ⟨vs, ws, rfl, hvs, hws⟩ := List.map_eq_append_iff.1 hmap
  obtain ⟨w, rfl, hw⟩ := List.map_eq_singleton_iff.1 hws
  refine ⟨vs, w, rfl, hw.trans hlast, fun u hu => ?_⟩
  have hmem : u.lexeme ∈ body.map Token.lexeme := hvs ▸ List.mem_map_of_mem hu
  obtain ⟨v, hv, heq⟩ := List.mem_map.1 hmem
  exact heq ▸ hbody v hv

/-- Tokens that are viable go on to the tokens of an expression, which need not stand anywhere. -/
theorem Viable.exists_tokens (h : Viable (ts.map Token.lexeme)) :
    ∃ us, Token.Ended (ts ++ us) ∧ (∀ u ∈ us, u.span = ⟨0, 0⟩) ∧
      ∀ limit, (ts ++ us).length ≤ limit → ∃ e, parse limit (ts ++ us) = .ok e := by
  obtain ⟨source, tokens, limit, e, hs, he, more, hmore⟩ := h
  have hend := Token.ended_of_ofSource hs
  let us : List Token := more.map fun l => ⟨l, ⟨0, 0⟩⟩
  have hmap : (ts ++ us).map Token.lexeme = tokens.map Token.lexeme := by
    simp [us, ← hmore, Function.comp_def]
  have hend' := hend.of_map_eq hmap
  have hbody : beforeEnd (ts ++ us) = beforeEnd tokens := by rw [beforeEnd, hmap, beforeEnd]
  refine ⟨us, hend', by simp [us], fun limit hlimit => ?_⟩
  obtain ⟨e', he', -⟩ := parse_of_derives hend' hlimit (hbody ▸ derives_of_parse hend he)
  exact ⟨e', he'⟩

end

/-- Tokens of a source begin at different places, in their order. -/
theorem Token.pairwise_of_ofSource {source : List Char} {tokens : List Token}
    (h : Token.ofSource source = .ok tokens) :
    tokens.Pairwise fun t u => t.span.start < u.span.start := by
  obtain ⟨ts, rfl, hrow⟩ := Token.ofSource_eq_ok_iff.1 h
  have hbounds := hrow.bounds
  rw [List.pairwise_append]
  refine ⟨hrow.pairwise.imp_of_mem fun ht _ htu => ?_, List.pairwise_singleton _ _, ?_⟩
  · have ht := hbounds _ ht
    omega
  · intro t ht u hu
    obtain rfl := List.mem_singleton.1 hu
    have ht := hbounds t ht
    rw [Nat.zero_add] at ht
    exact Nat.lt_of_lt_of_le ht.2.1 ht.2.2

section

variable {source : List Char} {tokens before after : List Token} {t : Token} {limit : Nat}
  {f : Fault} {ls : List Lexeme}

/-- The token of a fault cannot stand behind the tokens before it: the parser would have the same
fault over the tokens of an expression. -/
theorem not_viable_of_parse (h : Token.ofSource source = .ok tokens)
    (hparse : parse limit tokens = .error f)
    (hdeep : ∀ limit span, f ≠ .malformed (.tooDeep limit) span)
    (htokens : tokens = before ++ t :: after) (hoffset : f.offset = t.span.start) :
    ¬ Viable ((before ++ [t]).map Token.lexeme) := by
  intro hviable
  obtain ⟨us, hend, hus, haccepts⟩ := hviable.exists_tokens
  have hsplit : tokens = before ++ [t] ++ after := by rw [htokens, List.append_assoc]; rfl
  have hstretch := Checked.stretch_of_ofSource h
  have hstretch' : ∀ u ∈ tokens ++ (before ++ [t] ++ us), ∃ mid, Stretch source u.span mid := by
    refine List.forall_mem_append.2 ⟨hstretch, List.forall_mem_append.2 ⟨fun u hu => ?_, ?_⟩⟩
    · exact hstretch u (hsplit ▸ List.mem_append_left after hu)
    · exact fun u hu => ⟨[], [], source, rfl, hus u hu⟩
  have hagree : ∀ i < (before ++ [t]).length, (before ++ [t] ++ us)[i]? = tokens[i]? := by
    intro i hi
    rw [hsplit, List.getElem?_append_left hi, List.getElem?_append_left hi]
  let larger := max limit (before ++ [t] ++ us).length
  have hnarrows := parse_narrows (Nat.le_max_left limit (before ++ [t] ++ us).length) tokens
  rw [hparse] at hnarrows
  obtain ⟨e, he⟩ := haccepts larger (Nat.le_max_right _ _)
  rcases parse_lookahead (Token.ended_of_ofSource h) hend hstretch' hagree
    (hnarrows.error (hdeep limit)) hdeep with hfault | ⟨j, u, hj, hu, hstart⟩
  · cases he.symm.trans hfault
  · have hpairwise := Token.pairwise_of_ofSource h
    rw [hsplit, List.pairwise_append] at hpairwise
    have hmem : u ∈ after := by
      rw [hsplit, List.getElem?_append_right hj] at hu
      exact List.mem_of_getElem? hu
    have hlt := hpairwise.2.2 t (by simp) u hmem
    omega

/-- A fault within the limit is that of a token behind a beginning of an expression. -/
theorem exists_of_parse (h : Token.ofSource source = .ok tokens)
    (hparse : parse limit tokens = .error f)
    (hdeep : ∀ span, f ≠ .malformed (.tooDeep limit) span) :
    ∃ before t after, tokens = before ++ t :: after ∧ Viable (before.map Token.lexeme) ∧
      Blames (Due.operand.after (before.map Token.lexeme)) t f := by
  rcases parse_fails hparse with ⟨before, d, hp, hbegins, hblames⟩ | ⟨⟨span, hf⟩, -⟩
  · obtain ⟨ts, rfl, hrow⟩ := Token.ofSource_eq_ok_iff.1 h
    have htokens : ts ++ [Token.endAt (byteLength source)] = before ++ d.rest := hp.rest
    have heof : Lexeme.eof ∉ before.map Token.lexeme := by
      obtain ⟨more, e, -, he⟩ := hbegins
      exact fun hmem => he.eof_notMem (List.mem_append_left more hmem)
    cases hrest : d.rest with
    | nil =>
      rw [hrest, List.append_nil] at htokens
      refine absurd ?_ heof
      rw [← htokens, List.map_append]
      exact List.mem_append_right _ (List.mem_singleton.2 rfl)
    | cons t after =>
      rw [hrest] at htokens
      have hts : ts = before ++ (t :: after).dropLast := by
        rw [← List.dropLast_append_of_ne_nil (List.cons_ne_nil t after), ← htokens,
          List.dropLast_concat]
      obtain ⟨xs, ys, -, hbefore, -⟩ := (hts ▸ hrow).split
      rw [Cursor.next_of_rest hrest] at hblames
      exact ⟨before, t, after, htokens, viable_of_begins hbefore hbegins, hblames⟩
  · exact absurd hf (hdeep span)

/-- A limit above the number of the tokens is exceeded by none of them. -/
theorem ne_tooDeep_of_parse (hparse : parse limit tokens = .error f)
    (hlimit : tokens.length < limit) (span : Span) : f ≠ .malformed (.tooDeep limit) span := by
  rcases parse_fails hparse with ⟨before, d, -, -, hblames⟩ | ⟨-, hcount⟩
  · exact hblames.ne_tooDeep limit span
  · have hcount : limit ≤ tokens.length ∨ limit < tokens.length := hcount
    omega

/-- Over the viable row and a string behind it the parser would have to blame the string, which it
does not do where an operand is due. -/
theorem viable_string_of_due (h : Viable ls)
    (hdue : Due.operand.after ls = .operand) : Viable (ls ++ [.string ""]) := by
  obtain ⟨xs, ts, e, hrow, he, rfl | ⟨more, hmore⟩⟩ := h.exists_row
  · rw [Due.after_append, he.due_eq] at hdue
    cases hdue
  obtain ⟨before, rest, rfl, rfl, -⟩ := List.map_eq_append_iff.1 hmore.symm
  obtain ⟨xs, ys, -, hbefore, -⟩ := hrow.split
  let u : Token := ⟨.string "", ⟨byteLength xs + 1, byteLength xs + 1 + 2⟩⟩
  have hstring : Token.Row (byteLength xs + ' '.utf8Size) ['"', '"'] [] [u] :=
    .word (w := ['"', '"']) (by simp) (by rintro _ ⟨⟩; decide) rfl .nil
  obtain ⟨source, last, hsource⟩ :
      ∃ source last, Token.ofSource source = .ok (before ++ u :: [last]) :=
    ⟨_, _, Token.ofSource_eq_ok_iff.2
      ⟨_, (List.append_assoc before [u] _).symm, hbefore.behind_blank hstring⟩⟩
  have hmap : (before ++ [u]).map Token.lexeme = before.map Token.lexeme ++ [.string ""] :=
    List.map_append
  rw [← hmap]
  by_contra hnot
  cases hparse : parse ((before ++ u :: [last]).length + 1) (before ++ u :: [last]) with
  | ok e => exact hnot ⟨_, _, _, e, hsource, hparse, by simp⟩
  | error f =>
    have hdeep := ne_tooDeep_of_parse hparse (Nat.lt_succ_self _)
    obtain ⟨before', t, after, htokens, hviable, hblames⟩ := exists_of_parse hsource hparse hdeep
    have hnot' := not_viable_of_parse hsource hparse hblames.ne_tooDeep htokens hblames.offset_eq
    obtain rfl := eq_of_viable rfl htokens h hnot hviable hnot'
    obtain ⟨rfl, -⟩ := List.cons.inj (List.append_cancel_left htokens)
    rw [hdue] at hblames
    exact hblames.ne_string "" rfl

/-- An operand is due behind a viable row just where a string is viable. -/
theorem due_eq_operand_iff (h : Viable ls) :
    Due.operand.after ls = .operand ↔ Viable (ls ++ [.string ""]) :=
  ⟨viable_string_of_due h, due_eq_of_viable_string⟩

end

/-- A limit above the number of the tokens is exceeded by none of them. A fault that is not one of
the nesting is the fault of the one token where the beginning of an expression ends: the tokens
before it are those of an expression as far as they go, and with it, they are not, the end token
standing for the whole. The fault is a restriction just where the token is refused by a rule, which
it names, and malformed text everywhere else. The rule depends on whether an operand is due there,
which is whether a string could stand in place of the token. -/
theorem faults_are_earliest {source : List Char} {tokens : List Token}
    (h : Token.ofSource source = .ok tokens) {limit : Nat} {f : Fault}
    (hparse : parse limit tokens = .error f) :
    (tokens.length < limit → ∀ span, f ≠ .malformed (.tooDeep limit) span) ∧
    ((∀ span, f ≠ .malformed (.tooDeep limit) span) →
      ∃ before t after, tokens = before ++ t :: after ∧ f.offset = t.span.start ∧
        Viable (before.map Token.lexeme) ∧ ¬ Viable ((before ++ [t]).map Token.lexeme) ∧
        (∀ before' t' after', tokens = before' ++ t' :: after' →
          Viable (before'.map Token.lexeme) → ¬ Viable ((before' ++ [t']).map Token.lexeme) →
          before' = before) ∧
        (Due.operand.after (before.map Token.lexeme) = .operand ↔
          Viable (before.map Token.lexeme ++ [.string ""])) ∧
        (∀ rule, Refuses (Due.operand.after (before.map Token.lexeme)) t.lexeme rule ↔
          ∃ r : Restriction, r.rule = rule ∧ f = .restricted r t.span.start) ∧
        ((∀ rule, ¬ Refuses (Due.operand.after (before.map Token.lexeme)) t.lexeme rule) ↔
          ∃ cause, f = .malformed cause t.span)) := by
  constructor
  · exact ne_tooDeep_of_parse hparse
  · intro hdeep
    obtain ⟨before, t, after, htokens, hviable, hblames⟩ := exists_of_parse h hparse hdeep
    have hnot := not_viable_of_parse h hparse hblames.ne_tooDeep htokens hblames.offset_eq
    refine ⟨before, t, after, htokens, hblames.offset_eq, hviable, hnot, ?_,
      due_eq_operand_iff hviable, hblames.refuses_iff, hblames.not_refuses_iff⟩
    intro before' t' after' htokens' hviable' hnot'
    exact eq_of_viable htokens htokens' hviable hnot hviable' hnot'

/-- A call of a constructor among the arguments of a call is refused where an operand is due. -/
theorem faults_are_earliest_sample :
    ∃ tokens f before t after, Token.ofSource "f(new".toList = .ok tokens ∧
      parse 5 tokens = .error f ∧ tokens.length < 5 ∧ tokens = before ++ t :: after ∧
      t.span.start = 2 ∧ Viable (before.map Token.lexeme) ∧
      ¬ Viable ((before ++ [t]).map Token.lexeme) ∧
      Refuses (Due.operand.after (before.map Token.lexeme)) t.lexeme "new" := by
  let tokens : List Token :=
    [⟨.ident "f", ⟨0, 1⟩⟩, ⟨.lparen, ⟨1, 2⟩⟩, ⟨.ident "new", ⟨2, 5⟩⟩, ⟨.eof, ⟨5, 5⟩⟩]
  have hs : Token.ofSource "f(new".toList = .ok tokens := rfl
  have hparse : parse 5 tokens = .error (.restricted .construction 2) := rfl
  obtain ⟨within, earliest⟩ := faults_are_earliest hs hparse
  obtain ⟨before, t, after, htokens, hoffset, hviable, hnot, -, -, hrefuses, -⟩ :=
    earliest (within (by decide))
  have hstart : t.span.start = 2 := hoffset.symm
  exact ⟨tokens, _, before, t, after, hs, hparse, by decide, htokens, hstart, hviable, hnot,
    (hrefuses "new").2 ⟨.construction, rfl, by rw [hstart]⟩⟩

end SigilExpr
