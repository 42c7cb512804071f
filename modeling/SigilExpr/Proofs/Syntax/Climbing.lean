import SigilExpr.Proofs.Syntax.Phrase

/-!
# Climbing and levels

The parser climbs: one loop takes the operators of all levels from a least one on. The grammar has
its ten levels one inside the other. A parser that goes down them one by one, with a loop on each,
does what climbing does, for the loop from level `p` on comes to the loop from level `p + 1` on with
the operators of level `p` alone after it.

Operands may be read in any way that does not go back.
-/

set_option autoImplicit false

namespace SigilExpr

theorem bind_congr_ok {ε α β : Type} {x : Except ε α} {f g : α → Except ε β}
    (h : ∀ a, x = .ok a → f a = g a) : x >>= f = x >>= g := by
  cases x with
  | error e => rfl
  | ok a => exact h a rfl

namespace Lexeme

/-- The operator of the given level that a lexeme spells. -/
def connectiveAt? (level : Nat) (l : Lexeme) : Option Connective :=
  l.connective?.filter fun c => c.level == level

theorem connectiveAt?_eq_some_iff {l : Lexeme} {p : Nat} {op : Connective} :
    l.connectiveAt? p = some op ↔ l = op.lexeme ∧ op.level = p := by
  simp [connectiveAt?, Option.filter_eq_some_iff, connective?_eq_some_iff]

theorem connectiveAt?_eq_none_iff {l : Lexeme} {p : Nat} :
    l.connectiveAt? p = none ↔ ∀ op, l.connective? = some op → op.level ≠ p := by
  simp [connectiveAt?, Option.filter_eq_none_iff]

end Lexeme

namespace Parser

/-- Reads the operators of one level, with their right operands, after a first operand. -/
def operators (limit level : Nat) (operand : Step) (start : Nat) :
    Nat → SourceExpr → Cursor → Except Fault (SourceExpr × Cursor)
  | 0, left, c => .ok (left, c)
  | fuel + 1, left, c =>
    match c.lexeme.connectiveAt? level with
    | none => .ok (left, c)
    | some op => do
      let (right, c) ← operand c.advance
      let (left, c) ← finish limit start c [left, right] (connect op left right)
      operators limit level operand start fuel left c

/-- Reads an expression of the `count` tightest levels of operators. -/
def levels (limit : Nat) (operand : Step) : Nat → Step
  | 0, c => operand c
  | count + 1, c => do
    let (left, rest) ← levels limit operand count c
    operators limit (10 - count) (levels limit operand count) c.start c.count left rest

/-- Reads the right operand of an operator before the cursor and joins it with the left one. -/
def attach (limit : Nat) (step : Step) (start : Nat) (op : Connective) (left : SourceExpr) : Step :=
  fun c => do
    let (right, rest) ← step c.advance
    finish limit start rest [left, right] (connect op left right)

/-- Climbs through operands with a bound on the rounds. -/
def binaryWithin (limit : Nat) (operand : Step) (fuel least : Nat) : Step := fun c => do
  let (left, rest) ← operand c
  climb limit operand fuel least c.start left rest

/-- A parser that never goes back. -/
def Forward (step : Step) : Prop := ∀ ⦃c e d⦄, step c = .ok (e, d) → d.count ≤ c.count

/-- The loop from level `least` on stops before this lexeme. -/
def Stops (least : Nat) (l : Lexeme) : Prop := ∀ op, l.connective? = some op → op.level < least

theorem Stops.mono {p q : Nat} {l : Lexeme} (h : Stops p l) (hpq : p ≤ q) : Stops q l :=
  fun op hop => Nat.lt_of_lt_of_le (h op hop) hpq

theorem Stops.connectiveAt?_eq_none {p : Nat} {l : Lexeme} (h : Stops p l) :
    l.connectiveAt? p = none :=
  Lexeme.connectiveAt?_eq_none_iff.2 fun op hop => Nat.ne_of_lt (h op hop)

theorem stops_or (p : Nat) (l : Lexeme) :
    Stops p l ∨ ∃ op, l.connective? = some op ∧ p ≤ op.level := by
  cases h : l.connective? with
  | none => exact .inl fun op hop => absurd (h.symm.trans hop) (by simp)
  | some op =>
    rcases Nat.lt_or_ge op.level p with hlt | hge
    · exact .inl fun op' hop => Option.some.inj (h.symm.trans hop) ▸ hlt
    · exact .inr ⟨op, rfl, hge⟩

theorem count_pos_of_connective? {c : Cursor} {op : Connective}
    (h : c.lexeme.connective? = some op) : 0 < c.count := by
  have heof : c.lexeme ≠ .eof := Lexeme.connective?_eq_some_iff.1 h ▸ op.lexeme_ne_eof
  rw [(Cursor.Passes.advance heof).count]
  exact Nat.lt_add_right _ Nat.one_pos

theorem stops_of_count {p : Nat} {c : Cursor} (h : c.count = 0) : Stops p c.lexeme :=
  fun _ hop => absurd h (Nat.ne_of_gt (count_pos_of_connective? hop))

section

variable {limit p : Nat} {operand step : Step} {fuel fuel' start : Nat} {left e : SourceExpr}
  {c d : Cursor} {op : Connective}

theorem exists_of_attach (h : attach limit step start op left c = .ok (e, d)) :
    ∃ r, step c.advance = .ok (r, d) := by
  simp only [attach, bind_eq_ok_iff, Prod.exists] at h
  obtain ⟨r, d, hr, hf⟩ := h
  obtain ⟨-, -, rfl⟩ := finish_eq_ok_iff.1 hf
  exact ⟨r, hr⟩

theorem operators_of_none (h : c.lexeme.connectiveAt? p = none) :
    operators limit p step start fuel left c = .ok (left, c) := by
  cases fuel with
  | zero => rfl
  | succ fuel => rw [operators, h]

theorem operators_round (h : c.lexeme.connectiveAt? p = some op) :
    operators limit p step start (fuel + 1) left c = (do
      let (left, rest) ← attach limit step start op left c
      operators limit p step start fuel left rest) := by
  simp only [operators, h, attach, bind_assoc]

theorem climb_of_stops (h : Stops p c.lexeme) :
    climb limit operand fuel p start left c = .ok (left, c) := by
  cases fuel with
  | zero => rfl
  | succ fuel =>
    rw [climb]
    split
    · rfl
    · next op hop => rw [if_pos (h op hop)]

theorem climb_round (hop : c.lexeme.connective? = some op) (hp : p ≤ op.level) :
    climb limit operand (fuel + 1) p start left c = (do
      let (left, rest) ←
        attach limit (binaryWithin limit operand fuel (op.level + 1)) start op left c
      climb limit operand fuel p start left rest) := by
  rw [climb, hop]
  simp only [if_neg (Nat.not_lt.2 hp), attach, binaryWithin, bind_assoc]

/-- An operator that is looser than the level ends all loops. -/
theorem climb_eq_operators_of_stops (h : Stops p c.lexeme) :
    climb limit operand fuel p start left c = (do
      let (left, rest) ← climb limit operand fuel (p + 1) start left c
      operators limit p step start fuel' left rest) := by
  rw [climb_of_stops h, climb_of_stops (h.mono (Nat.le_succ p))]
  exact (operators_of_none h.connectiveAt?_eq_none).symm

variable (hoperand : Forward operand)
include hoperand

theorem climb_forward (h : climb limit operand fuel p start left c = .ok (e, d)) :
    d.count ≤ c.count := by
  induction fuel generalizing p start left c e d with
  | zero =>
    cases h
    exact Nat.le_refl _
  | succ fuel ih =>
    rcases stops_or p c.lexeme with hstops | ⟨op, hop, hp⟩
    · rw [climb_of_stops hstops] at h
      cases h
      exact Nat.le_refl _
    · simp only [climb_round hop hp, bind_eq_ok_iff, Prod.exists] at h
      obtain ⟨l, d₂, hattach, hrest⟩ := h
      obtain ⟨r, hr⟩ := exists_of_attach hattach
      simp only [binaryWithin, bind_eq_ok_iff, Prod.exists] at hr
      obtain ⟨r₁, d₁, hfirst, hloop⟩ := hr
      have h₁ : d₁.count ≤ c.count - 1 := hoperand hfirst
      have h₂ : d₂.count ≤ d₁.count := ih hloop
      have h₃ : d.count ≤ d₂.count := ih hrest
      omega

theorem attach_forward {least : Nat}
    (h : attach limit (binaryWithin limit operand fuel least) start op left c = .ok (e, d)) :
    d.count ≤ c.count - 1 := by
  obtain ⟨r, hr⟩ := exists_of_attach h
  simp only [binaryWithin, bind_eq_ok_iff, Prod.exists] at hr
  obtain ⟨r₁, d₁, hfirst, hloop⟩ := hr
  exact Nat.le_trans (climb_forward hoperand hloop) (hoperand hfirst)

/-- How many rounds there may be does not matter, as long as there is one for each token. -/
theorem climb_congr (hfuel : c.count ≤ fuel) (hfuel' : c.count ≤ fuel') :
    climb limit operand fuel p start left c = climb limit operand fuel' p start left c := by
  induction fuel generalizing fuel' p start left c with
  | zero =>
    have hstops : Stops p c.lexeme := stops_of_count (Nat.le_zero.1 hfuel)
    rw [climb_of_stops hstops, climb_of_stops hstops]
  | succ fuel ih =>
    rcases stops_or p c.lexeme with hstops | ⟨op, hop, hp⟩
    · rw [climb_of_stops hstops, climb_of_stops hstops]
    have hpos := count_pos_of_connective? hop
    obtain ⟨fuel', rfl⟩ : ∃ k, fuel' = k + 1 := ⟨fuel' - 1, by omega⟩
    have hright : binaryWithin limit operand fuel (op.level + 1) c.advance =
        binaryWithin limit operand fuel' (op.level + 1) c.advance := by
      refine bind_congr_ok fun ⟨r, d⟩ hr => ?_
      have hd : d.count ≤ c.count - 1 := hoperand hr
      exact ih (Nat.le_trans hd (by omega)) (Nat.le_trans hd (by omega))
    rw [climb_round hop hp, climb_round hop hp, attach, attach, ← hright]
    refine bind_congr_ok fun ⟨l, d⟩ hattach => ?_
    have hd := attach_forward hoperand hattach
    exact ih (Nat.le_trans hd (by omega)) (Nat.le_trans hd (by omega))

theorem binaryWithin_eq_binary {least : Nat} (hfuel : c.count ≤ fuel) :
    binaryWithin limit operand fuel least c = binary limit operand least c := by
  refine bind_congr_ok fun ⟨r, d⟩ hr => ?_
  have hd := hoperand hr
  exact climb_congr hoperand (Nat.le_trans hd hfuel) hd

/-- After a whole loop the next operator is looser than the least one. -/
theorem climb_stops (hfuel : c.count ≤ fuel)
    (h : climb limit operand fuel p start left c = .ok (e, d)) : Stops p d.lexeme := by
  induction fuel generalizing left c with
  | zero =>
    cases h
    exact stops_of_count (Nat.le_zero.1 hfuel)
  | succ fuel ih =>
    rcases stops_or p c.lexeme with hstops | ⟨op, hop, hp⟩
    · rw [climb_of_stops hstops] at h
      cases h
      exact hstops
    · simp only [climb_round hop hp, bind_eq_ok_iff, Prod.exists] at h
      obtain ⟨l, d₂, hattach, hrest⟩ := h
      have hd := attach_forward hoperand hattach
      exact ih (Nat.le_trans hd (by omega)) hrest

theorem binary_stops {least : Nat} (h : binary limit operand least c = .ok (e, d)) :
    Stops least d.lexeme := by
  simp only [binary, bind_eq_ok_iff, Prod.exists] at h
  obtain ⟨l, d₁, hfirst, hloop⟩ := h
  exact climb_stops hoperand (hoperand hfirst) hloop

/-- The loop from a level on is that from the next level on, and then the operators of the level
alone. By induction on the rounds: an operator that is looser than the level ends all loops, one of
the level ends that from the next level on, and a tighter one is a round of both. -/
theorem climb_eq_operators (hfuel : c.count ≤ fuel) (hfuel' : c.count ≤ fuel') :
    climb limit operand fuel p start left c = (do
      let (left, rest) ← climb limit operand fuel (p + 1) start left c
      operators limit p (binary limit operand (p + 1)) start fuel' left rest) := by
  induction fuel generalizing fuel' left c with
  | zero => exact climb_eq_operators_of_stops (stops_of_count (Nat.le_zero.1 hfuel))
  | succ fuel ih =>
    rcases stops_or p c.lexeme with hstops | ⟨op, hop, hp⟩
    · exact climb_eq_operators_of_stops hstops
    have hpos := count_pos_of_connective? hop
    rcases Nat.eq_or_lt_of_le hp with rfl | hlt
    · obtain ⟨fuel', rfl⟩ : ∃ k, fuel' = k + 1 := ⟨fuel' - 1, by omega⟩
      have hat : c.lexeme.connectiveAt? op.level = some op :=
        Lexeme.connectiveAt?_eq_some_iff.2 ⟨Lexeme.connective?_eq_some_iff.1 hop, rfl⟩
      have hnext : Stops (op.level + 1) c.lexeme :=
        fun op' hop' => Option.some.inj (hop.symm.trans hop') ▸ Nat.lt_succ_self _
      have hright : binaryWithin limit operand fuel (op.level + 1) c.advance =
          binary limit operand (op.level + 1) c.advance :=
        binaryWithin_eq_binary hoperand (Nat.pred_le_of_le_succ hfuel)
      rw [climb_round hop hp, climb_of_stops hnext]
      refine Eq.trans ?_ (operators_round hat).symm
      rw [attach, attach, ← hright]
      refine bind_congr_ok fun ⟨l, d⟩ hattach => ?_
      obtain ⟨r, hr⟩ := exists_of_attach hattach
      rw [hright] at hr
      have hd : d.count ≤ fuel := Nat.le_trans (attach_forward hoperand hattach) (by omega)
      have hd' : d.count ≤ fuel' := Nat.le_trans (attach_forward hoperand hattach) (by omega)
      dsimp only
      rw [ih hd hd', climb_of_stops (binary_stops hoperand hr)]
      rfl
    · rw [climb_round hop hp, climb_round hop hlt, bind_assoc]
      refine bind_congr_ok fun ⟨l, d⟩ hattach => ?_
      have hd := attach_forward hoperand hattach
      exact ih (Nat.le_trans hd (by omega)) (Nat.le_trans hd (by omega))

/-- Climbing from a level on is going down the levels to it. -/
theorem binary_eq_levels {count : Nat} (hcount : count ≤ 10) :
    binary limit operand (11 - count) = levels limit operand count := by
  induction count with
  | zero =>
    funext c
    have hstops : ∀ l : Lexeme, Stops 11 l := fun _ op _ => Nat.lt_succ_of_le op.level_le
    rw [binary, levels]
    refine Eq.trans (bind_congr_ok fun ⟨e, d⟩ _ => climb_of_stops (hstops d.lexeme)) (bind_pure _)
  | succ count ih =>
    funext c
    have hnext : 11 - count = 10 - count + 1 := by omega
    rw [levels, ← ih (by omega), Nat.succ_sub_succ, hnext, binary, binary, bind_assoc]
    refine bind_congr_ok fun ⟨l, d⟩ hfirst => ?_
    have hd := hoperand hfirst
    exact climb_eq_operators hoperand hd hd

end

end Parser

end SigilExpr
