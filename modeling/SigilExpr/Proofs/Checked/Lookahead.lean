import SigilExpr.Proofs.Checked.Safety

/-!
# Tokens that a result does not depend on

Two parsers by positions are run side by side on rows of tokens that agree below position `k`. They
agree until the first one has passed these tokens, and it never goes back. Hence a fault of a token
below `k` is found whatever stands from position `k` on.
-/

set_option autoImplicit false

namespace SigilExpr.Checked

/-- The parser has come to position `k` at least, or it has stopped over its limit or in a trap. The
position that a value tells is `pos` of it. -/
def Reached {α : Type} (pos : α → Nat) (k : Nat) : Except Alarm α → Prop
  | .ok a => k ≤ pos a
  | .error (.fault f position) =>
    k ≤ position ∨ ∃ limit span, f = .malformed (.tooDeep limit) span
  | .error (.trap _) => True

/-- The first parser has come to position `i` at least, and to position `k` if the second one does
anything else. -/
def Tracks {α : Type} (pos : α → Nat) (i k : Nat) (y z : Except Alarm α) : Prop :=
  Reached pos i y ∧ (z = y ∨ Reached pos k y)

section

variable {α β : Type} {pos : α → Nat} {pos' : β → Nat} {i j k : Nat} {y z : Except Alarm α}

theorem Reached.mono (h : Reached pos j y) (hij : i ≤ j) : Reached pos i y := by
  match y, h with
  | .ok a, h => exact Nat.le_trans hij h
  | .error (.fault f position), h => exact h.imp_left (Nat.le_trans hij)
  | .error (.trap t), _ => trivial

namespace Tracks

theorem same (h : Reached pos i y) : Tracks pos i k y y := ⟨h, .inl rfl⟩

/-- Behind position `k` nothing is left to be shown of the second parser. -/
theorem of_le (h : Reached pos i y) (hk : k ≤ i) : Tracks pos i k y z := ⟨h, .inr (h.mono hk)⟩

theorem bind {g g' : α → Except Alarm β} (h : Tracks pos i k y z)
    (hg : ∀ a, i ≤ pos a → Tracks pos' (pos a) k (g a) (g' a)) :
    Tracks pos' i k (y >>= g) (z >>= g') := by
  obtain ⟨hreached, hsame⟩ := h
  cases y with
  | error alarm =>
    refine ⟨by cases alarm <;> exact hreached, ?_⟩
    rcases hsame with rfl | hk
    · exact .inl rfl
    · exact .inr (by cases alarm <;> exact hk)
  | ok a =>
    have htracks := hg a hreached
    refine ⟨htracks.1.mono hreached, ?_⟩
    rcases hsame with rfl | hk
    · exact htracks.2
    · exact .inr (htracks.1.mono hk)

end Tracks

theorem raise_tracks (source : List Char) (f : Fault) :
    Tracks pos i k (raise source i f) (raise source i f) := by
  refine .same ?_
  rcases raise_eq_or source i f with h | ⟨t, h⟩ <;> rw [h]
  · exact .inl (Nat.le_refl i)
  · trivial

theorem cut_tracks (source : List Char) (span : Span) :
    Tracks (fun _ => i) i k (cut source span) (cut source span) := by
  refine .same ?_
  unfold cut
  cases Text.cut? source span with
  | none => trivial
  | some mid => exact Nat.le_refl i

theorem counter_tracks (largest n : Nat) :
    Tracks (fun _ => i) i k (counter largest n) (counter largest n) := by
  refine .same ?_
  unfold counter
  split
  · exact Nat.le_refl i
  · trivial

end

namespace Input

/-- The same input with other tokens. -/
abbrev withTokens (input : Input) (tokens : List Token) : Input := { input with tokens := tokens }

/-- The first step tracks the second one, from every position. -/
def Tracked (k : Nat) (step step' : Step) : Prop :=
  ∀ j, Tracks Prod.snd j k (step j) (step' j)

variable {input : Input} {tokens : List Token} {j k : Nat}
variable (hagree : ∀ i < k, tokens[i]? = input.tokens[i]?)
include hagree

section

variable {α : Type} {pos : α → Nat}

theorem token_tracks :
    Tracks (fun _ => j) j k (input.token j) ((input.withTokens tokens).token j) := by
  unfold token
  cases h : input.tokens[j]? with
  | none => exact ⟨trivial, .inr trivial⟩
  | some t =>
    by_cases hj : j < k
    · rw [hagree j hj, h]
      exact .same (Nat.le_refl j)
    · exact .of_le (Nat.le_refl j) (Nat.le_of_not_lt hj)

theorem advance_tracks :
    Tracks id j k (input.advance j) ((input.withTokens tokens).advance j) := by
  unfold advance
  by_cases hlt : j + 1 < input.tokens.length
  · rw [if_pos hlt]
    by_cases hj : j + 1 < k
    · have hsome := hagree (j + 1) hj
      rw [List.getElem?_eq_getElem hlt] at hsome
      rw [if_pos (List.getElem?_eq_some_iff.1 hsome).1]
      exact .same (Nat.le_succ j)
    · exact ⟨Nat.le_succ j, .inr (Nat.le_of_not_lt hj)⟩
  · rw [if_neg hlt]
    exact ⟨trivial, .inr trivial⟩

theorem previousStop_tracks :
    Tracks (fun _ => j) j k (input.previousStop j)
      ((input.withTokens tokens).previousStop j) := by
  cases j with
  | zero => exact .same (Nat.le_refl 0)
  | succ j =>
    simp only [previousStop, token]
    cases h : input.tokens[j]? with
    | none => exact ⟨trivial, .inr trivial⟩
    | some t =>
      by_cases hj : j < k
      · rw [hagree j hj, h]
        exact .same (Nat.le_refl _)
      · exact .of_le (Nat.le_refl _) (Nat.le_succ_of_le (Nat.le_of_not_lt hj))

theorem malformed_tracks (cause : Malformation) :
    Tracks pos j k (input.malformed j cause) ((input.withTokens tokens).malformed j cause) :=
  (token_tracks hagree).bind fun _ _ => raise_tracks _ _

theorem instead_tracks (cause : Malformation) :
    Tracks pos j k (input.instead j cause) ((input.withTokens tokens).instead j cause) := by
  refine (token_tracks hagree).bind fun t _ => ?_
  cases t.lexeme.restriction? with
  | none => exact malformed_tracks hagree cause
  | some restriction => exact raise_tracks _ _

theorem misplaced_tracks (place : Place) :
    Tracks pos j k (input.misplaced j place) ((input.withTokens tokens).misplaced j place) := by
  refine (token_tracks hagree).bind fun t _ => ?_
  split
  · exact malformed_tracks hagree _
  · exact (cut_tracks _ _).bind fun _ _ => instead_tracks hagree _

theorem require_tracks (l : Lexeme) (missing : Missing) :
    Tracks id j k (input.require j l missing) ((input.withTokens tokens).require j l missing) := by
  refine (token_tracks hagree).bind fun t _ => ?_
  split
  · exact advance_tracks hagree
  · exact instead_tracks hagree _

omit hagree in
theorem tooDeep_reached (i limit : Nat) :
    Reached pos i (input.malformed j (.tooDeep limit)) := by
  unfold malformed token
  cases input.tokens[j]? with
  | none => trivial
  | some t =>
    show Reached pos i (raise input.source j (.malformed (.tooDeep limit) t.span))
    rcases raise_eq_or input.source j (.malformed (.tooDeep limit) t.span) with h | ⟨trap, h⟩
    · rw [h]
      exact .inr ⟨limit, t.span, rfl⟩
    · rw [h]
      trivial

theorem finish_tracks (start : Nat) (es : List SourceExpr) (form : Mark → SourceExpr) :
    Tracks Prod.snd j k (input.finish start j es form)
      ((input.withTokens tokens).finish start j es form) := by
  refine (previousStop_tracks hagree).bind fun stop _ => ?_
  refine (counter_tracks _ _).bind fun height _ => ?_
  dsimp only
  split
  · exact ⟨tooDeep_reached _ _, .inr (tooDeep_reached _ _)⟩
  · exact .same (Nat.le_refl j)

theorem climb_tracks {step step' : Step} (hstep : Tracked k step step') :
    ∀ (rounds least start : Nat) (left : SourceExpr) (j : Nat),
      Tracks Prod.snd j k (input.climb step rounds least start left j)
        ((input.withTokens tokens).climb step' rounds least start left j) := by
  intro rounds
  induction rounds with
  | zero => exact fun _ _ _ _ => .same trivial
  | succ rounds ih =>
    intro least start left j
    refine (token_tracks hagree).bind fun t _ => ?_
    cases t.lexeme.connective? with
    | none => exact .same (Nat.le_refl j)
    | some op =>
      dsimp only
      split
      · exact .same (Nat.le_refl j)
      refine (advance_tracks hagree).bind fun i _ => (token_tracks hagree).bind fun next _ => ?_
      refine (hstep i).bind fun ⟨right, i⟩ _ => (ih _ _ right i).bind fun ⟨right, i⟩ _ => ?_
      exact (finish_tracks hagree _ _ _).bind fun ⟨left, i⟩ _ => ih least start left i

theorem binary_tracks {step step' : Step} (hstep : Tracked k step step') (least : Nat) :
    Tracked k (input.binary step least) ((input.withTokens tokens).binary step' least) := by
  intro j
  refine (token_tracks hagree).bind fun t _ => (hstep j).bind fun ⟨left, i⟩ _ => ?_
  exact climb_tracks hagree hstep _ _ _ left i

section

variable {inner inner' : Step}

theorem items_tracks (hi : Tracked k inner inner') (close : Lexeme) (missing : Missing) :
    ∀ rounds j : Nat, Tracks Prod.snd j k (input.items inner close missing rounds j)
      ((input.withTokens tokens).items inner' close missing rounds j) := by
  intro rounds
  induction rounds with
  | zero => exact fun _ => .same trivial
  | succ rounds ih =>
    intro j
    refine (token_tracks hagree).bind fun t _ => ?_
    dsimp only
    split
    · refine (advance_tracks hagree).bind fun i _ => ?_
      exact .same (Nat.le_refl i)
    · refine (hi j).bind fun ⟨e, i⟩ _ => (token_tracks hagree).bind fun t _ => ?_
      dsimp only
      split
      · refine (advance_tracks hagree).bind fun i _ => ?_
        exact (ih i).bind fun ⟨es, i⟩ _ => .same (Nat.le_refl i)
      · exact (require_tracks hagree close missing).bind fun i _ => .same (Nat.le_refl i)

theorem leaf_tracks (form : Mark → SourceExpr) :
    Tracks Prod.snd j k (input.leaf j form) ((input.withTokens tokens).leaf j form) := by
  refine (token_tracks hagree).bind fun t _ => ?_
  refine (advance_tracks hagree).bind fun i _ => ?_
  exact finish_tracks hagree _ _ _

theorem primary_tracks (hi : Tracked k inner inner') :
    Tracked k (input.primary inner) ((input.withTokens tokens).primary inner') := by
  intro j
  refine (token_tracks hagree).bind fun t _ => ?_
  cases t.lexeme with
  | number x | string s | bool b | null => exact leaf_tracks hagree _
  | ident name =>
    dsimp only
    split
    · exact raise_tracks _ _
    · exact leaf_tracks hagree _
  | lparen =>
    refine (advance_tracks hagree).bind fun i _ => ?_
    refine (hi i).bind fun ⟨e, i⟩ _ => (require_tracks hagree _ _).bind fun i _ => ?_
    exact (previousStop_tracks hagree).bind fun stop _ => .same (Nat.le_refl i)
  | lbracket =>
    refine (advance_tracks hagree).bind fun i _ => ?_
    exact (items_tracks hagree hi _ _ _ i).bind fun ⟨es, i⟩ _ => finish_tracks hagree _ _ _
  | eof => exact malformed_tracks hagree _
  | _ => exact misplaced_tracks hagree _

theorem suffixes_tracks (hi : Tracked k inner inner') (start : Nat) :
    ∀ (rounds : Nat) (e : SourceExpr) (j : Nat),
      Tracks Prod.snd j k (input.suffixes inner start rounds e j)
        ((input.withTokens tokens).suffixes inner' start rounds e j) := by
  intro rounds
  induction rounds with
  | zero => exact fun _ _ => .same trivial
  | succ rounds ih =>
    intro e j
    refine (token_tracks hagree).bind fun t _ => ?_
    cases t.lexeme with
    | dot =>
      refine (advance_tracks hagree).bind fun i _ => ?_
      refine (token_tracks hagree).bind fun t _ => ?_
      cases t.lexeme.propertyName? with
      | none => exact misplaced_tracks hagree _
      | some name =>
        refine (advance_tracks hagree).bind fun i _ => ?_
        exact (finish_tracks hagree _ _ _).bind fun ⟨e, i⟩ _ => ih e i
    | lbracket =>
      refine (advance_tracks hagree).bind fun i _ => ?_
      refine (hi i).bind fun ⟨key, i⟩ _ => (require_tracks hagree _ _).bind fun i _ => ?_
      exact (finish_tracks hagree _ _ _).bind fun ⟨e, i⟩ _ => ih e i
    | lparen =>
      refine (advance_tracks hagree).bind fun i _ => ?_
      refine (items_tracks hagree hi _ _ _ i).bind fun ⟨args, i⟩ _ => ?_
      exact (finish_tracks hagree _ _ _).bind fun ⟨e, i⟩ _ => ih e i
    | _ => exact .same (Nat.le_refl j)

theorem operand_tracks {deeper deeper' : Step} (hd : Tracked k deeper deeper')
    (hi : Tracked k inner inner') :
    Tracked k (input.operand deeper inner) ((input.withTokens tokens).operand deeper' inner') := by
  intro j
  refine (token_tracks hagree).bind fun t _ => ?_
  cases t.lexeme.unary? with
  | some op =>
    refine (advance_tracks hagree).bind fun i _ => ?_
    exact (hd i).bind fun ⟨e, i⟩ _ => finish_tracks hagree _ _ _
  | none =>
    dsimp only
    split
    · exact misplaced_tracks hagree _
    · exact (primary_tracks hagree hi j).bind fun ⟨e, i⟩ _ =>
        suffixes_tracks hagree hi _ _ e i

theorem conditional_tracks {test test' : Step} (ht : Tracked k test test')
    (hi : Tracked k inner inner') :
    Tracked k (input.conditional test inner)
      ((input.withTokens tokens).conditional test' inner') := by
  intro j
  refine (token_tracks hagree).bind fun first _ => (ht j).bind fun ⟨t, i⟩ _ => ?_
  refine (token_tracks hagree).bind fun next _ => ?_
  dsimp only
  split
  · refine (advance_tracks hagree).bind fun i _ => ?_
    refine (hi i).bind fun ⟨a, i⟩ _ => (require_tracks hagree _ _).bind fun i _ => ?_
    exact (hi i).bind fun ⟨b, i⟩ _ => finish_tracks hagree _ _ _
  · exact .same (Nat.le_refl i)

end

theorem descend_tracks : ∀ (frames depth : Nat) (goal : Parser.Goal),
    Tracked k (input.descend frames depth goal)
      ((input.withTokens tokens).descend frames depth goal) := by
  intro frames
  induction frames with
  | zero => exact fun _ _ _ => .same trivial
  | succ frames ih =>
    intro depth goal j
    refine (counter_tracks _ _).bind fun depth _ => ?_
    dsimp only
    split
    · exact malformed_tracks hagree _
    · have hoperand := operand_tracks hagree (ih depth .operand) (ih depth .expression)
      cases goal with
      | operand => exact hoperand j
      | expression =>
        exact conditional_tracks hagree (binary_tracks hagree hoperand 1) (ih depth .expression) j

theorem whole_tracks : Tracks Prod.snd 0 k input.whole (input.withTokens tokens).whole := by
  refine (descend_tracks hagree _ _ _ 0).bind fun ⟨e, i⟩ _ => ?_
  refine (token_tracks hagree).bind fun t _ => ?_
  cases t.lexeme with
  | eof => exact .same (Nat.le_refl i)
  | comma | semicolon => exact malformed_tracks hagree _
  | _ => exact misplaced_tracks hagree _

end

end Input

end SigilExpr.Checked

namespace SigilExpr

/-- On tokens that agree below position `k` a parser has the same fault, unless the fault is one of
a token that stands at position `k` or later. -/
theorem parse_lookahead {source : List Char} {tokens other : List Token} {k limit : Nat} {f : Fault}
    (hend : Token.Ended tokens) (hend' : Token.Ended other)
    (hstretch : ∀ t ∈ tokens ++ other, ∃ mid, Text.Stretch source t.span mid)
    (hagree : ∀ i < k, other[i]? = tokens[i]?) (h : parse limit tokens = .error f)
    (hdeep : ∀ limit span, f ≠ .malformed (.tooDeep limit) span) :
    parse limit other = .error f ∨
      ∃ j t, k ≤ j ∧ tokens[j]? = some t ∧ f.offset = t.span.start := by
  let input : Checked.Input :=
    ⟨source, tokens, limit, limit + 1, max tokens.length other.length⟩
  obtain ⟨hstretch, hstretch'⟩ := List.forall_mem_append.1 hstretch
  have hsound : input.Sound := ⟨hend, hstretch, Nat.lt_succ_self _, Nat.le_max_left _ _⟩
  have hsound' : (input.withTokens other).Sound :=
    ⟨hend', hstretch', Nat.lt_succ_self _, Nat.le_max_right _ _⟩
  have hfollows : Checked.Follows input.Marks _ (parse limit tokens) input.whole :=
    Checked.Input.whole_follows hsound
  have hfollows' : Checked.Follows (input.withTokens other).Marks _ (parse limit other)
      (input.withTokens other).whole := Checked.Input.whole_follows hsound'
  rw [h] at hfollows
  obtain ⟨j, hwhole, t, ht, hoffset, -⟩ := hfollows
  have htracks : Checked.Tracks Prod.snd 0 k input.whole (input.withTokens other).whole :=
    Checked.Input.whole_tracks hagree
  obtain ⟨-, hsame | hreached⟩ := htracks
  · rw [hwhole] at hsame
    rw [hsame] at hfollows'
    cases hother : parse limit other with
    | ok e =>
      rw [hother] at hfollows'
      obtain ⟨_, hok, -⟩ := hfollows'
      cases hok
    | error f' =>
      rw [hother] at hfollows'
      obtain ⟨_, ⟨⟩, -⟩ := hfollows'
      exact .inl rfl
  · rw [hwhole] at hreached
    rcases hreached with hj | ⟨m, span, hf⟩
    · exact .inr ⟨j, t, hj, ht, hoffset⟩
    · exact absurd hf (hdeep m span)

end SigilExpr
