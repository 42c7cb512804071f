import SigilExpr.Proofs.Syntax.Grouping

/-!
# A limit only refuses

Two parsers with different limits are run side by side on the same tokens. They agree until the
smaller limit is exceeded, and then the parser that has it stops with a fault that says so. Hence a
larger limit changes no other result.

A limit is NOT the same as a bound on the height: nesting in groups counts too, and only without
groups does an expression fit any limit that its height fits.
-/

set_option autoImplicit false

namespace SigilExpr.Parser

open Grammar

/-- The first result is the second one, unless it is the fault that the nesting exceeds `d`. -/
def Narrows {α : Type} (d : Nat) (x y : Except Fault α) : Prop :=
  x = y ∨ ∃ span, x = .error (.malformed (.tooDeep d) span)

namespace Narrows

variable {α β : Type} {d : Nat} {x y : Except Fault α}

theorem refl (x : Except Fault α) : Narrows d x x := .inl rfl

theorem tooDeep (span : Span) : Narrows d (.error (.malformed (.tooDeep d) span)) y :=
  .inr ⟨span, rfl⟩

theorem bind {f g : α → Except Fault β} (h : Narrows d x y) (hfg : ∀ a, Narrows d (f a) (g a)) :
    Narrows d (x >>= f) (y >>= g) := by
  rcases h with rfl | ⟨span, rfl⟩
  · cases x with
    | ok a => exact hfg a
    | error fault => exact .refl _
  · exact .tooDeep span

theorem ok {a : α} (h : Narrows d (.ok a) y) : y = .ok a := by
  rcases h with h | ⟨span, h⟩
  · exact h.symm
  · cases h

theorem error {fault : Fault} (h : Narrows d (.error fault) y)
    (hne : ∀ span, fault ≠ .malformed (.tooDeep d) span) : y = .error fault := by
  rcases h with h | ⟨span, h⟩
  · exact h.symm
  · cases h
    exact absurd rfl (hne span)

end Narrows

section

variable {d d' : Nat}

theorem finish_narrows (h : d ≤ d') (start : Nat) (c : Cursor) (es : List SourceExpr)
    (form : Mark → SourceExpr) : Narrows d (finish d start c es form) (finish d' start c es form) := by
  by_cases hh : d < 1 + maxHeight es
  · rw [finish, if_pos hh]
    exact .tooDeep _
  · have hh' : ¬ d' < 1 + maxHeight es := by omega
    rw [finish, if_neg hh, finish, if_neg hh']
    exact .refl _

variable {step step' inner inner' : Step}

theorem climb_narrows (h : d ≤ d') (hs : ∀ c, Narrows d (step c) (step' c)) :
    ∀ (fuel least start : Nat) (l : SourceExpr) (c : Cursor),
      Narrows d (climb d step fuel least start l c) (climb d' step' fuel least start l c) := by
  intro fuel
  induction fuel with
  | zero => exact fun _ _ _ _ => .refl _
  | succ fuel ih =>
    intro least start l c
    rw [climb, climb]
    cases c.lexeme.connective? with
    | none => exact .refl _
    | some op =>
      dsimp only
      split
      · exact .refl _
      · apply (hs c.advance).bind
        rintro ⟨r, c₁⟩
        apply (ih _ _ r c₁).bind
        rintro ⟨r, c₂⟩
        apply (finish_narrows h _ _ _ _).bind
        rintro ⟨l, c₃⟩
        exact ih least start l c₃

theorem binary_narrows (h : d ≤ d') (hs : ∀ c, Narrows d (step c) (step' c)) (least : Nat)
    (c : Cursor) : Narrows d (binary d step least c) (binary d' step' least c) := by
  apply (hs c).bind
  rintro ⟨l, rest⟩
  exact climb_narrows h hs _ _ _ l rest

variable (hi : ∀ c, Narrows d (inner c) (inner' c))
include hi

theorem items_narrows (close : Lexeme) (missing : Missing) :
    ∀ (fuel : Nat) (c : Cursor),
      Narrows d (items inner close missing fuel c) (items inner' close missing fuel c) := by
  intro fuel
  induction fuel with
  | zero => exact fun _ => .refl _
  | succ fuel ih =>
    intro c
    rw [items, items]
    by_cases hclose : c.lexeme = close
    · rw [if_pos hclose, if_pos hclose]
      exact .refl _
    · rw [if_neg hclose, if_neg hclose]
      apply (hi c).bind
      rintro ⟨e, c₁⟩
      by_cases hcomma : c₁.lexeme = .comma
      · simp only [if_pos hcomma]
        exact (ih c₁.advance).bind fun _ => .refl _
      · simp only [if_neg hcomma]
        exact .refl _

theorem primary_narrows (h : d ≤ d') (c : Cursor) :
    Narrows d (primary d inner c) (primary d' inner' c) := by
  unfold primary
  dsimp only
  cases c.lexeme with
  | number x | string s | bool b | null => exact finish_narrows h _ _ _ _
  | ident name =>
    dsimp only
    split
    · exact .refl _
    · exact finish_narrows h _ _ _ _
  | lparen => exact (hi c.advance).bind fun _ => .refl _
  | lbracket =>
    apply (items_narrows hi _ _ _ _).bind
    rintro ⟨es, rest⟩
    exact finish_narrows h _ _ _ _
  | _ => exact .refl _

theorem suffixes_narrows (h : d ≤ d') (start : Nat) :
    ∀ (fuel : Nat) (e : SourceExpr) (c : Cursor),
      Narrows d (suffixes d inner start fuel e c) (suffixes d' inner' start fuel e c) := by
  intro fuel
  induction fuel with
  | zero => exact fun _ _ => .refl _
  | succ fuel ih =>
    intro e c
    rw [suffixes, suffixes]
    cases c.lexeme with
    | dot =>
      dsimp only
      cases c.advance.lexeme.propertyName? with
      | none => exact .refl _
      | some name => exact (finish_narrows h _ _ _ _).bind fun r => ih r.1 r.2
    | lbracket =>
      apply (hi c.advance).bind
      rintro ⟨key, c₁⟩
      apply (Narrows.refl (c₁.require .rbracket .keyEnd)).bind
      intro c₂
      exact (finish_narrows h _ _ _ _).bind fun r => ih r.1 r.2
    | lparen =>
      apply (items_narrows hi _ _ _ _).bind
      rintro ⟨args, c₁⟩
      exact (finish_narrows h _ _ _ _).bind fun r => ih r.1 r.2
    | _ => exact .refl _

theorem operand_narrows (h : d ≤ d') {deeper deeper' : Step}
    (hd : ∀ c, Narrows d (deeper c) (deeper' c)) (c : Cursor) :
    Narrows d (operand d deeper inner c) (operand d' deeper' inner' c) := by
  rw [operand, operand]
  cases c.lexeme.unary? with
  | some op =>
    apply (hd c.advance).bind
    rintro ⟨e, rest⟩
    exact finish_narrows h _ _ _ _
  | none =>
    dsimp only
    split
    · exact .refl _
    · apply (primary_narrows hi h c).bind
      rintro ⟨e, rest⟩
      exact suffixes_narrows hi h _ _ e rest

theorem conditional_narrows (h : d ≤ d') {test test' : Step}
    (ht : ∀ c, Narrows d (test c) (test' c)) (c : Cursor) :
    Narrows d (conditional d test inner c) (conditional d' test' inner' c) := by
  rw [conditional, conditional]
  apply (ht c).bind
  rintro ⟨t, rest⟩
  by_cases hq : rest.lexeme = .question
  · simp only [if_pos hq]
    apply (hi rest.advance).bind
    rintro ⟨a, rest⟩
    apply (Narrows.refl (rest.require .colon .colon)).bind
    intro rest
    apply (hi rest).bind
    rintro ⟨b, rest⟩
    exact finish_narrows h _ _ _ _
  · simp only [if_neg hq]
    exact .refl _

end

/-- With fewer levels of nesting left a parser of one limit narrows that of a larger one. -/
theorem descend_narrows {d d' : Nat} (h : d ≤ d') :
    ∀ {depth depth' : Nat}, depth ≤ depth' → ∀ (goal : Goal) (c : Cursor),
      Narrows d (descend d depth goal c) (descend d' depth' goal c) := by
  intro depth
  induction depth with
  | zero => exact fun _ _ _ => .tooDeep _
  | succ depth ih =>
    intro depth' hdepth goal c
    obtain ⟨depth', rfl⟩ : ∃ k, depth' = k + 1 := ⟨depth' - 1, by omega⟩
    have hinner := ih (Nat.le_of_succ_le_succ hdepth) .expression
    have hop := operand_narrows hinner h (ih (Nat.le_of_succ_le_succ hdepth) .operand)
    cases goal with
    | operand => exact hop c
    | expression => exact conditional_narrows hinner h (binary_narrows h hop 1) c

end SigilExpr.Parser

namespace SigilExpr

open Grammar SigilExpr.Parser

theorem parse_narrows {d d' : Nat} (h : d ≤ d') (tokens : List Token) :
    Narrows d (parse d tokens) (parse d' tokens) := by
  apply (descend_narrows h h .expression (.ofTokens tokens)).bind
  rintro ⟨e, c⟩
  exact .refl _

theorem height_le_of_parse {limit : Nat} {tokens : List Token} {e : SourceExpr}
    (h : parse limit tokens = .ok e) : e.height ≤ limit := by
  obtain ⟨c, hc, -⟩ := parse_eq_ok_iff.1 h
  obtain ⟨ts, -, -, hheight⟩ := (descend_reads limit limit).1 hc
  exact hheight

theorem opensGroup_iff_beforeEnd {tokens : List Token} (hend : Token.Ended tokens) :
    OpensGroup .operand (tokens.map Token.lexeme) ↔ OpensGroup .operand (beforeEnd tokens) := by
  obtain ⟨ts, t, rfl, ht, -, hbody⟩ := hend.exists_body
  simp [hbody, ht]

/-- Without groups a limit refuses only what is higher than it is. -/
theorem parse_of_height_le {limit d : Nat} {tokens : List Token} {e : SourceExpr}
    (hend : Token.Ended tokens) (hg : ¬ OpensGroup .operand (tokens.map Token.lexeme))
    (h : parse limit tokens = .ok e) (he : e.height ≤ d) : parse d tokens = .ok e := by
  rw [opensGroup_iff_beforeEnd hend] at hg
  obtain ⟨ts, t, rfl, ht, hne, hbody⟩ := hend.exists_body
  rw [hbody] at hg
  obtain ⟨hph, -⟩ := (parse_eq_ok_iff_phrase ht hne).1 h
  exact (parse_eq_ok_iff_phrase ht hne).2 ⟨hph.fits hg (Nat.succ_le_succ he), he⟩

/-- A limit is a filter: what is read within it is read alike within any larger one and is no higher
than the limit, and a larger limit changes no fault but the one that the nesting exceeds the limit.
Where no parenthesis opens a group, the limit refuses nothing that is not higher than it is. -/
theorem limits_only_filter {source : List Char} {tokens : List Token}
    (h : Token.ofSource source = .ok tokens) {d d' : Nat} (hd : d ≤ d') :
    (∀ e, parse d tokens = .ok e → parse d' tokens = .ok e ∧ e.height ≤ d) ∧
    (∀ fault, parse d tokens = .error fault →
      (∀ span, fault ≠ .malformed (.tooDeep d) span) → parse d' tokens = .error fault) ∧
    (¬ OpensGroup .operand (tokens.map Token.lexeme) →
      ∀ limit e, parse limit tokens = .ok e → e.height ≤ d → parse d tokens = .ok e) ∧
    ∀ tree : Derivation .expression, tree.lexemes = beforeEnd tokens →
      (OpensGroup .operand (tokens.map Token.lexeme) ↔ tree.HasGroup) := by
  have hend := Token.ended_of_ofSource h
  have hnarrows := parse_narrows hd tokens
  refine ⟨?_, ?_, ?_, ?_⟩
  · intro e he
    rw [he] at hnarrows
    exact ⟨hnarrows.ok, height_le_of_parse he⟩
  · intro fault hfault hne
    rw [hfault] at hnarrows
    exact hnarrows.error hne
  · intro hg limit e he hheight
    exact parse_of_height_le hend hg he hheight
  · intro tree htree
    rw [opensGroup_iff_beforeEnd hend, ← htree, tree.opensGroup_iff]

/-- The arguments of a call open no group, so the call fits its height; an array that is not closed
is refused alike within any limit that it does not exceed. -/
theorem limits_only_filter_sample :
    ∃ tokens e unclosed span, Token.ofSource "f(a)".toList = .ok tokens ∧
      Token.ofSource "[a".toList = .ok unclosed ∧ 2 ≤ 3 ∧
      parse 2 tokens = .ok e ∧ parse 3 tokens = .ok e ∧ e.height ≤ 2 ∧
      (∀ limit f, parse limit tokens = .ok f → f.height ≤ 2 → parse 2 tokens = .ok f) ∧
      parse 3 unclosed = .error (.malformed (.missing .arrayEnd) span) := by
  let tokens : List Token :=
    [⟨.ident "f", ⟨0, 1⟩⟩, ⟨.lparen, ⟨1, 2⟩⟩, ⟨.ident "a", ⟨2, 3⟩⟩, ⟨.rparen, ⟨3, 4⟩⟩,
      ⟨.eof, ⟨4, 4⟩⟩]
  let unclosed : List Token := [⟨.lbracket, ⟨0, 1⟩⟩, ⟨.ident "a", ⟨1, 2⟩⟩, ⟨.eof, ⟨2, 2⟩⟩]
  let e : SourceExpr :=
    .call ⟨⟨0, 4⟩, 2⟩ (.ident ⟨⟨0, 1⟩, 1⟩ "f") [.ident ⟨⟨2, 3⟩, 1⟩ "a"]
  have hs : Token.ofSource "f(a)".toList = .ok tokens := rfl
  have hu : Token.ofSource "[a".toList = .ok unclosed := rfl
  have he : parse 2 tokens = .ok e := rfl
  have hfault : parse 2 unclosed = .error (.malformed (.missing .arrayEnd) ⟨2, 2⟩) := rfl
  have hg : ¬ OpensGroup .operand (tokens.map Token.lexeme) := by
    simp [tokens, Due.next, Lexeme.unary?, Lexeme.connective?]
  have hd : 2 ≤ 3 := by decide
  obtain ⟨keeps, -, fits, -⟩ := limits_only_filter hs hd
  obtain ⟨-, refuses, -, -⟩ := limits_only_filter hu hd
  obtain ⟨hlarger, hheight⟩ := keeps e he
  exact ⟨tokens, e, unclosed, ⟨2, 2⟩, hs, hu, hd, he, hlarger, hheight, fits hg,
    refuses _ hfault (by simp)⟩

end SigilExpr
