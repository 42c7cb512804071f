import SigilExpr.Proofs.Checked.Basic
import SigilExpr.Proofs.Syntax.Acceptance

/-!
# A parser by positions

This parser asks for each token by its position. It moves on only to another token, counts its
nesting in machine words, and takes no more rounds in a loop and no more nested calls than it is
given. It does what the parser that goes along the tokens does, and does not run into a trap.
-/

set_option autoImplicit false

namespace SigilExpr.Checked

open SigilExpr.Parser (Goal maxHeight connect)

/--
What a parser by positions reads, within a limit on the height of the tree. Its counts go up to
`largest`, and `rounds` bounds its loops and its nested calls.
-/
structure Input where
  source : List Char
  tokens : List Token
  limit : Nat
  largest : Nat
  rounds : Nat

abbrev Step := Nat → Except Alarm (SourceExpr × Nat)

namespace Input

variable (input : Input)

def token (i : Nat) : Except Alarm Token :=
  match input.tokens[i]? with
  | some t => .ok t
  | none => .error (.trap .noToken)

/-- The position after `i`, which has to be that of a token as well. -/
def advance (i : Nat) : Except Alarm Nat :=
  if i + 1 < input.tokens.length then .ok (i + 1) else .error (.trap .noToken)

/-- Where the token before a position ends. -/
def previousStop : Nat → Except Alarm Nat
  | 0 => .ok 0
  | i + 1 => do
    let t ← input.token i
    .ok t.span.stop

def malformed {α : Type} (i : Nat) (cause : Malformation) : Except Alarm α := do
  let t ← input.token i
  raise input.source i (.malformed cause t.span)

def instead {α : Type} (i : Nat) (cause : Malformation) : Except Alarm α := do
  let t ← input.token i
  match t.lexeme.restriction? with
  | some restriction => raise input.source i (.restricted restriction t.span.start)
  | none => input.malformed i cause

/-- The fault of a token at a place where it cannot stand; its text is cut out for the message. -/
def misplaced {α : Type} (i : Nat) (place : Place) : Except Alarm α := do
  let t ← input.token i
  if t.lexeme = .eof then input.malformed i (.endOfExpression (some place))
  else
    let _ ← cut input.source t.span
    input.instead i (.unexpectedToken place)

def require (i : Nat) (l : Lexeme) (missing : Missing) : Except Alarm Nat := do
  let t ← input.token i
  if t.lexeme = l then input.advance i else input.instead i (.missing missing)

def finish (start i : Nat) (children : List SourceExpr) (form : Mark → SourceExpr) :
    Except Alarm (SourceExpr × Nat) := do
  let stop ← input.previousStop i
  let height ← counter input.largest (1 + maxHeight children)
  if input.limit < height then input.malformed (i - 1) (.tooDeep input.limit)
  else .ok (form ⟨⟨start, stop⟩, height⟩, i)

def climb (operand : Step) :
    Nat → Nat → Nat → SourceExpr → Nat → Except Alarm (SourceExpr × Nat)
  | 0, _, _, _, _ => .error (.trap .endless)
  | rounds + 1, least, start, left, i => do
    let t ← input.token i
    match t.lexeme.connective? with
    | none => .ok (left, i)
    | some op =>
      if op.level < least then .ok (left, i)
      else
        let i ← input.advance i
        let next ← input.token i
        let (right, i) ← operand i
        let (right, i) ← climb operand rounds (op.level + 1) next.span.start right i
        let (left, i) ← input.finish start i [left, right] (connect op left right)
        climb operand rounds least start left i

def binary (operand : Step) (least : Nat) : Step := fun i => do
  let t ← input.token i
  let (left, i) ← operand i
  input.climb operand input.rounds least t.span.start left i

def items (inner : Step) (close : Lexeme) (missing : Missing) :
    Nat → Nat → Except Alarm (List SourceExpr × Nat)
  | 0, _ => .error (.trap .endless)
  | rounds + 1, i => do
    let t ← input.token i
    if t.lexeme = close then
      let i ← input.advance i
      .ok ([], i)
    else
      let (e, i) ← inner i
      let t ← input.token i
      if t.lexeme = .comma then
        let i ← input.advance i
        let (es, i) ← items inner close missing rounds i
        .ok (e :: es, i)
      else
        let i ← input.require i close missing
        .ok ([e], i)

def leaf (i : Nat) (form : Mark → SourceExpr) : Except Alarm (SourceExpr × Nat) := do
  let t ← input.token i
  let i ← input.advance i
  input.finish t.span.start i [] form

def primary (inner : Step) : Step := fun i => do
  let t ← input.token i
  match t.lexeme with
  | .number x => input.leaf i (.number · x)
  | .string s => input.leaf i (.string · s)
  | .bool b => input.leaf i (.bool · b)
  | .null => input.leaf i .null
  | .ident name =>
    if name = "new" then raise input.source i (.restricted .construction t.span.start)
    else input.leaf i (.ident · name)
  | .lparen =>
    let i ← input.advance i
    let (e, i) ← inner i
    let i ← input.require i .rparen .groupEnd
    let stop ← input.previousStop i
    .ok (e.withNote ⟨⟨t.span.start, stop⟩, e.height⟩, i)
  | .lbracket =>
    let i ← input.advance i
    let (es, i) ← input.items inner .rbracket .arrayEnd input.rounds i
    input.finish t.span.start i es (.array · es)
  | .eof => input.malformed i (.endOfExpression none)
  | _ => input.misplaced i .operand

def suffixes (inner : Step) (start : Nat) :
    Nat → SourceExpr → Nat → Except Alarm (SourceExpr × Nat)
  | 0, _, _ => .error (.trap .endless)
  | rounds + 1, e, i => do
    let t ← input.token i
    match t.lexeme with
    | .dot =>
      let i ← input.advance i
      let t ← input.token i
      match t.lexeme.propertyName? with
      | none => input.misplaced i .propertyName
      | some name =>
        let i ← input.advance i
        let (e, i) ← input.finish start i [e] (.member · e name)
        suffixes inner start rounds e i
    | .lbracket =>
      let i ← input.advance i
      let (key, i) ← inner i
      let i ← input.require i .rbracket .keyEnd
      let (e, i) ← input.finish start i [e, key] (.index · e key)
      suffixes inner start rounds e i
    | .lparen =>
      let i ← input.advance i
      let (args, i) ← input.items inner .rparen .argumentsEnd input.rounds i
      let (e, i) ← input.finish start i (e :: args) (.call · e args)
      suffixes inner start rounds e i
    | _ => .ok (e, i)

def operand (deeper inner : Step) : Step := fun i => do
  let t ← input.token i
  match t.lexeme.unary? with
  | some op =>
    let i ← input.advance i
    let (e, i) ← deeper i
    input.finish t.span.start i [e] (.unary · op e)
  | none =>
    if t.lexeme = .plusPlus ∨ t.lexeme = .minusMinus then input.misplaced i .startOfOperand
    else
      let (e, i) ← input.primary inner i
      input.suffixes inner t.span.start input.rounds e i

def conditional (test inner : Step) : Step := fun i => do
  let first ← input.token i
  let (t, i) ← test i
  let next ← input.token i
  if next.lexeme = .question then
    let i ← input.advance i
    let (a, i) ← inner i
    let i ← input.require i .colon .colon
    let (b, i) ← inner i
    input.finish first.span.start i [t, a, b] (.conditional · t a b)
  else .ok (t, i)

/-- Reads an expression or an operand at the given depth of nesting, in `frames` nested calls. -/
def descend : Nat → Nat → Goal → Step
  | 0, _, _ => fun _ => .error (.trap .endless)
  | frames + 1, depth, goal => fun i => do
    let depth ← counter input.largest (depth + 1)
    if input.limit < depth then input.malformed i (.tooDeep input.limit)
    else
      let inner := descend frames depth .expression
      let operand := input.operand (descend frames depth .operand) inner
      match goal with
      | .operand => operand i
      | .expression => input.conditional (input.binary operand 1) inner i

/-- The single expression that the tokens spell, and the position of the end. -/
def whole : Except Alarm (SourceExpr × Nat) := do
  let (e, i) ← input.descend input.rounds 0 .expression 0
  let t ← input.token i
  match t.lexeme with
  | .eof => .ok (e, i)
  | .comma => input.malformed i .secondExpression
  | .semicolon => input.malformed i .statement
  | _ => input.misplaced i .afterExpression

/-- A position and a cursor are at the same token. -/
def At (j : Nat) (c : Cursor) : Prop :=
  ∃ ts, (Cursor.ofTokens input.tokens).Passes ts c ∧ ts.length = j ∧ c.rest ≠ []

/-- The fault is one of the token at the position, and quotes it if it quotes anything. -/
def Marks (j : Nat) (f : Fault) : Prop :=
  ∃ t, input.tokens[j]? = some t ∧ f.offset = t.span.start ∧
    ∀ cause span, f = .malformed cause span → span = t.span

/-- The tokens are those of the source, the counts fit, and there are enough rounds. -/
structure Sound : Prop where
  ended : Token.Ended input.tokens
  stretch : ∀ t ∈ input.tokens, ∃ mid, Text.Stretch input.source t.span mid
  limit_lt : input.limit < input.largest
  length_le : input.tokens.length ≤ input.rounds

/-- Both have read the same, which is within the limit, and are at one token, not before `i`. -/
structure Arrives {α : Type} (P : α → Prop) (i : Nat) (a : α × Cursor) (b : α × Nat) : Prop where
  eq : b.1 = a.1
  low : P a.1
  le : i ≤ b.2
  stands : input.At b.2 a.2

def Low (e : SourceExpr) : Prop := e.height ≤ input.limit

/-- The checked step does what the other one does, at every token from position `i` on. -/
def Simulates (i : Nat) (step : Parser.Step) (step' : Step) : Prop :=
  ∀ ⦃j c⦄, i ≤ j → input.At j c →
    Follows input.Marks (input.Arrives input.Low (j + 1)) (step c) (step' j)

variable {input} {i j : Nat} {c : Cursor}

namespace At

theorem exists_append (h : input.At j c) :
    ∃ ts us, input.tokens = ts ++ c.next :: us ∧ ts.length = j ∧ c.rest = c.next :: us ∧
      c.previous = (ts.getLast?.map Token.span).getD ⟨0, 0⟩ := by
  obtain ⟨ts, hp, hlen, hne⟩ := h
  obtain ⟨t, us, hrest⟩ := List.exists_cons_of_ne_nil hne
  have htokens : input.tokens = ts ++ c.rest := hp.rest
  rw [Cursor.next_of_rest hrest]
  exact ⟨ts, us, hrest ▸ htokens, hlen, hrest, hp.previous⟩

theorem getElem?_eq (h : input.At j c) : input.tokens[j]? = some c.next := by
  obtain ⟨ts, us, htokens, rfl, -, -⟩ := h.exists_append
  simp [htokens]

theorem token_eq (h : input.At j c) : input.token j = .ok c.next := by
  rw [token, h.getElem?_eq]

theorem lt (h : input.At j c) : j < input.tokens.length :=
  (List.getElem?_eq_some_iff.1 h.getElem?_eq).1

theorem mem (h : input.At j c) : c.next ∈ input.tokens := List.mem_of_getElem? h.getElem?_eq

theorem count_eq (h : input.At j c) : c.count + j = input.tokens.length := by
  obtain ⟨ts, us, htokens, rfl, hrest, -⟩ := h.exists_append
  rw [c.count_eq, htokens, hrest, List.length_append, Nat.add_comm]

theorem count_le {k : Nat} {d : Cursor} (h : input.At j c) (hd : input.At k d) (hjk : j ≤ k) :
    d.count ≤ c.count := by
  have hcount := h.count_eq
  have hcount' := hd.count_eq
  omega

theorem count_pos (h : input.At j c) : 0 < c.count := by
  have hlt := h.lt
  have hcount := h.count_eq
  omega

/-- Behind a token that is not the end there is another one. -/
theorem advance (hs : input.Sound) (h : input.At j c) (hne : c.lexeme ≠ .eof) :
    input.At (j + 1) c.advance := by
  obtain ⟨ts, hp, rfl, -⟩ := id h
  refine ⟨ts ++ [c.next], hp.append (.advance hne), by simp, fun hnil => hne ?_⟩
  obtain ⟨body, last, htokens, hlast, -⟩ := hs.ended
  have hrest : input.tokens = ts ++ [c.next] := by
    have hrest := (hp.append (.advance hne)).rest
    rw [hnil, List.append_nil] at hrest
    exact hrest
  rw [htokens] at hrest
  obtain ⟨-, hlast'⟩ := List.append_inj' hrest rfl
  rw [Cursor.lexeme, ← List.singleton_inj.1 hlast', hlast]

theorem advance_eq (hs : input.Sound) (h : input.At j c) (hne : c.lexeme ≠ .eof) :
    input.advance j = .ok (j + 1) :=
  if_pos (h.advance hs hne).lt

/-- The token before the position is the one that the cursor has passed last. -/
theorem exists_previous (h : input.At j c) (hj : 0 < j) :
    ∃ t, input.tokens[j - 1]? = some t ∧ c.previous = t.span := by
  obtain ⟨ts, us, htokens, rfl, -, hprevious⟩ := h.exists_append
  obtain ⟨vs, t, rfl⟩ : ∃ vs t, ts = vs ++ [t] :=
    ⟨_, _, (List.dropLast_concat_getLast (List.length_pos_iff.1 hj)).symm⟩
  refine ⟨t, ?_, by simpa using hprevious⟩
  rw [htokens, List.length_append, List.length_singleton, Nat.add_sub_cancel, List.append_assoc,
    List.getElem?_append_right (Nat.le_refl _), Nat.sub_self]
  rfl

theorem previousStop_eq (h : input.At j c) : input.previousStop j = .ok c.previous.stop := by
  cases j with
  | zero =>
    obtain ⟨ts, -, -, hnil, -, hprevious⟩ := h.exists_append
    rw [List.length_eq_zero_iff.1 hnil] at hprevious
    rw [hprevious]
    rfl
  | succ j =>
    obtain ⟨t, ht, hprevious⟩ := h.exists_previous (Nat.succ_pos j)
    rw [Nat.add_sub_cancel] at ht
    rw [hprevious, previousStop, token, ht]
    rfl

end At

theorem Marks.quotes {f : Fault} (hs : input.Sound) (h : input.Marks j f) :
    Quotes input.source f := by
  obtain ⟨t, ht, -, hspan⟩ := h
  intro cause span hf _
  rw [hspan cause span hf]
  exact hs.stretch t (List.mem_of_getElem? ht)

theorem at_ofTokens (hs : input.Sound) : input.At 0 (.ofTokens input.tokens) := by
  refine ⟨[], .refl _, rfl, fun hnil => ?_⟩
  obtain ⟨ts, t, htokens, -⟩ := hs.ended
  have hnil : input.tokens = [] := hnil
  rw [htokens] at hnil
  exact absurd hnil (by simp)

section

variable {α β : Type} {R : α → β → Prop} {cause : Malformation} {x : Except Fault α}

/-- Where the checked parser asks for the token, there is one, and it goes on with it. -/
theorem follows_token (h : input.At j c) {g : Token → Except Alarm β}
    (hg : Follows input.Marks R x (g c.next)) : Follows input.Marks R x (input.token j >>= g) := by
  rw [h.token_eq]
  exact hg

theorem follows_advance (hs : input.Sound) (h : input.At j c) (hne : c.lexeme ≠ .eof)
    {g : Nat → Except Alarm β}
    (hg : input.At (j + 1) c.advance → Follows input.Marks R x (g (j + 1))) :
    Follows input.Marks R x (input.advance j >>= g) := by
  rw [h.advance_eq hs hne]
  exact hg (h.advance hs hne)

theorem follows_raise {f : Fault} {t : Token} (hs : input.Sound) (ht : input.tokens[j]? = some t)
    (hoffset : f.offset = t.span.start)
    (hspan : ∀ cause span, f = .malformed cause span → span = t.span) :
    Follows input.Marks R (.error f) (raise input.source j f) := by
  have hmarks : input.Marks j f := ⟨t, ht, hoffset, hspan⟩
  exact ⟨j, raise_eq_error (hmarks.quotes hs), hmarks⟩

theorem malformed_follows (hs : input.Sound) {t : Token} (ht : input.tokens[j]? = some t) :
    Follows input.Marks R (.error (.malformed cause t.span)) (input.malformed j cause) := by
  unfold malformed
  rw [token, ht]
  refine follows_raise hs ht rfl ?_
  rintro _ _ ⟨⟩
  rfl

theorem instead_follows (hs : input.Sound) (h : input.At j c) :
    Follows input.Marks R (.error (c.instead cause)) (input.instead j cause) := by
  refine follows_token h ?_
  unfold Cursor.instead Cursor.lexeme
  cases c.next.lexeme.restriction? with
  | none => exact malformed_follows hs h.getElem?_eq
  | some restriction => exact follows_raise hs h.getElem?_eq rfl (by rintro _ _ ⟨⟩)

theorem misplaced_follows (hs : input.Sound) (h : input.At j c) (place : Place) :
    Follows input.Marks R (.error (c.misplaced place)) (input.misplaced j place) := by
  refine follows_token h ?_
  unfold Cursor.misplaced Cursor.lexeme
  by_cases heof : c.next.lexeme = .eof
  · rw [if_pos heof, if_pos heof]
    exact malformed_follows hs h.getElem?_eq
  · obtain ⟨mid, hmid⟩ := hs.stretch c.next h.mem
    rw [if_neg heof, if_neg heof, cut_eq_ok hmid]
    exact instead_follows hs h

theorem require_follows (hs : input.Sound) (h : input.At j c) {l : Lexeme} (hl : l ≠ .eof)
    (missing : Missing) :
    Follows input.Marks (fun d k => k = j + 1 ∧ input.At k d) (c.require l missing)
      (input.require j l missing) := by
  refine follows_token h ?_
  unfold Cursor.require Cursor.lexeme
  by_cases heq : c.next.lexeme = l
  · have hne : c.lexeme ≠ .eof := by rwa [Cursor.lexeme, heq]
    rw [if_pos heq, if_pos heq, h.advance_eq hs hne]
    exact ⟨j + 1, rfl, rfl, h.advance hs hne⟩
  · rw [if_neg heq, if_neg heq]
    exact instead_follows hs h

theorem finish_follows (hs : input.Sound) (h : input.At j c) (hi : i ≤ j) (hj : 0 < j)
    {start : Nat} {es : List SourceExpr} {form : Mark → SourceExpr} (hes : ∀ e ∈ es, input.Low e)
    (hform : ∀ m, (form m).height = m.height) :
    Follows input.Marks (input.Arrives input.Low i) (Parser.finish input.limit start c es form)
      (input.finish start j es form) := by
  have hlow : maxHeight es ≤ input.limit := Parser.maxHeight_le_iff.2 hes
  have hcounter : 1 + maxHeight es ≤ input.largest := by
    have hlt := hs.limit_lt
    omega
  unfold Parser.finish finish
  rw [h.previousStop_eq, counter_eq_ok hcounter]
  by_cases hheight : input.limit < 1 + maxHeight es
  · obtain ⟨t, ht, hprevious⟩ := h.exists_previous hj
    simp only [if_pos hheight, hprevious, bind, Except.bind]
    exact malformed_follows hs ht
  · simp only [if_neg hheight, bind, Except.bind]
    exact ⟨_, rfl, rfl, by rw [Low, hform]; exact Nat.le_of_not_lt hheight, hi, h⟩

end

end Input

end SigilExpr.Checked
