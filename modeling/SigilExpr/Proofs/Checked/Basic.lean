import SigilExpr.Fault
import SigilExpr.Proofs.Text.Stretch

/-!
# Checked steps

A front end may count and cut by itself: it asks for tokens by their positions, cuts the texts that
it needs out of the source by byte offsets, and counts its nesting in machine words. Here each such
step is checked, and a step that cannot be made is a trap, which is no fault of the source.
-/

set_option autoImplicit false

namespace SigilExpr.Checked

/-- A step that cannot be made: there is no token at the position, the bounds of a cut are out of
order or within a character, the count is no machine word, or the last round is over. -/
inductive Trap where
  | noToken
  | badCut
  | overflow
  | endless

/-- Why a checked front end stops: over a fault, at the given position, or in a trap. -/
inductive Alarm where
  | fault (f : Fault) (position : Nat)
  | trap (t : Trap)

/-- A count that has to fit a machine word, the largest one being `largest`. -/
def counter (largest n : Nat) : Except Alarm Nat :=
  if n ≤ largest then .ok n else .error (.trap .overflow)

/-- The part of the source from byte `i` on. -/
def textFrom (source : List Char) (i : Nat) : Except Alarm (List Char) :=
  match Text.splitAt? i source with
  | some (_, rest) => .ok rest
  | none => .error (.trap .badCut)

def cut (source : List Char) (span : Span) : Except Alarm (List Char) :=
  match Text.cut? source span with
  | some mid => .ok mid
  | none => .error (.trap .badCut)

/-- Stops over a fault; the text that a malformation quotes is cut out of the source for it. -/
def raise {α : Type} (source : List Char) (position : Nat) (f : Fault) : Except Alarm α :=
  match f with
  | .malformed _ span =>
    if span.start = span.stop then .error (.fault f position)
    else do
      let _ ← cut source span
      .error (.fault f position)
  | _ => .error (.fault f position)

/-- What the fault quotes, if it quotes anything, is a stretch of the source. -/
def Quotes (source : List Char) (f : Fault) : Prop :=
  ∀ cause span, f = .malformed cause span → span.start ≠ span.stop →
    ∃ mid, Text.Stretch source span mid

/-- The second result is the first one: a related value, or the same fault at a position with `M`.
-/
def Follows {α β : Type} (M : Nat → Fault → Prop) (R : α → β → Prop) (x : Except Fault α)
    (y : Except Alarm β) : Prop :=
  match x with
  | .ok a => ∃ b, y = .ok b ∧ R a b
  | .error f => ∃ position, y = .error (.fault f position) ∧ M position f

theorem Follows.bind {α β γ δ : Type} {M : Nat → Fault → Prop} {R : α → β → Prop}
    {S : γ → δ → Prop} {x : Except Fault α} {y : Except Alarm β} {f : α → Except Fault γ}
    {g : β → Except Alarm δ} (h : Follows M R x y) (hfg : ∀ a b, R a b → Follows M S (f a) (g b)) :
    Follows M S (x >>= f) (y >>= g) := by
  cases x with
  | ok a =>
    obtain ⟨b, rfl, hab⟩ := h
    exact hfg a b hab
  | error fault =>
    obtain ⟨position, rfl, hposition⟩ := h
    exact ⟨position, rfl, hposition⟩

section

variable {α : Type} {source mid rest : List Char} {span : Span} {f : Fault} {position i : Nat}

theorem counter_eq_ok {largest n : Nat} (h : n ≤ largest) : counter largest n = .ok n := if_pos h

theorem textFrom_eq_ok {before : List Char} (hsource : source = before ++ rest)
    (hi : Text.byteLength before = i) : textFrom source i = .ok rest := by
  rw [textFrom, Text.splitAt?_eq_some_iff.2 ⟨hsource, hi⟩]

theorem cut_eq_ok (h : Text.Stretch source span mid) : cut source span = .ok mid := by
  rw [cut, Text.cut?_eq_some_iff.2 h]

theorem raise_eq_error (h : Quotes source f) :
    raise source position f = (.error (.fault f position) : Except Alarm α) := by
  cases f with
  | malformed cause span =>
    unfold raise
    by_cases hspan : span.start = span.stop
    · exact if_pos hspan
    · obtain ⟨mid, hmid⟩ := h cause span rfl hspan
      simp only [if_neg hspan, cut_eq_ok hmid]
      rfl
  | restricted r offset => rfl
  | unresolved name offset => rfl

theorem raise_eq_or (source : List Char) (position : Nat) (f : Fault) :
    raise source position f = (.error (.fault f position) : Except Alarm α) ∨
      ∃ t, raise source position f = (.error (.trap t) : Except Alarm α) := by
  cases f with
  | malformed cause span =>
    unfold raise cut
    dsimp only
    split
    · exact .inl rfl
    · cases Text.cut? source span with
      | some mid => exact .inl rfl
      | none => exact .inr ⟨.badCut, rfl⟩
  | restricted r offset => exact .inl rfl
  | unresolved name offset => exact .inl rfl

end

end SigilExpr.Checked
