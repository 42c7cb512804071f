import SigilExpr.Proofs.Eval.Exchanges

/-!
# Operands in a row

A tree that is nested to the left by one logical operator has its operands in a row. Running it
tests the value that decides once more on every level above; this comes to the same as going through
the row from the left and stopping at the first operand that fails or decides, which a truthy value
does for `||` and a falsy one for `&&`. What stands behind this one asks for nothing.
-/

set_option autoImplicit false

namespace SigilExpr

namespace Run

variable {α β γ : Type}

theorem bind_pure_eq (r : Run α) : r.bind (fun a => .done (.ok a)) = r := by
  induction r with
  | done x => cases x <;> rfl
  | read name next ih => exact congrArg (Run.read name) (funext ih)
  | readRoot next ih => exact congrArg Run.readRoot (funext ih)
  | call name args next ih => exact congrArg (Run.call name args) (funext ih)

theorem bind_bind_eq (r : Run α) (f : α → Run β) (g : β → Run γ) :
    (r.bind f).bind g = r.bind fun a => (f a).bind g := by
  induction r with
  | done x => cases x <;> rfl
  | read name next ih => exact congrArg (Run.read name) (funext ih)
  | readRoot next ih => exact congrArg Run.readRoot (funext ih)
  | call name args next ih => exact congrArg (Run.call name args) (funext ih)

instance : LawfulMonad Run :=
  .mk' Run (fun r => bind_pure_eq r) (fun _ _ => rfl) (fun r f g => bind_bind_eq r f g)

/-- What follows a run is performed in the world that the run leaves, unless the run fails. -/
theorem perform_bind (context : Context) (r : Run α) (f : α → Run β) (w : World) :
    (r >>= f).perform context w =
      match r.perform context w with
      | (.ok a, w) => (f a).perform context w
      | (.error cause, w) => (.error cause, w) := by
  induction r generalizing w with
  | done x => cases x <;> rfl
  | read name next ih => exact ih _ _
  | readRoot next ih => exact ih _ _
  | call name args next ih => exact ih _ _

theorem exchanges_bind (context : Context) (r : Run α) (f : α → Run β) (w : World) :
    (r >>= f).exchanges context w = r.exchanges context w ++
      match r.perform context w with
      | (.ok a, w) => (f a).exchanges context w
      | (.error _, _) => [] := by
  induction r generalizing w with
  | done x => cases x <;> rfl
  | read name next ih => exact congrArg (List.cons (.read name)) (ih _ _)
  | readRoot next ih => exact congrArg (List.cons .readRoot) (ih _ _)
  | call name args next ih =>
    exact congrArg (List.cons (.call name args (w.call name args).1)) (ih _ _)

end Run

/-- Operands are performed from the left, each in the world that the one before leaves, up to the
first that fails, or that is truthy for `||` and falsy for `&&`, or to the last. The outcome is that
of the operand where it stops, and the exchanges are those of the operands up to there. -/
inductive StopsEarly (context : Context) : LogicalOp → List (Run Value) → World →
    List Exchange → Except RuntimeError Value × World → Prop where
  | last (op : LogicalOp) (r : Run Value) (w : World) :
      StopsEarly context op [r] w (r.exchanges context w) (r.perform context w)
  | failed {op : LogicalOp} {r : Run Value} {rs : List (Run Value)} {w w' : World}
      {cause : RuntimeError} : r.perform context w = (.error cause, w') →
      StopsEarly context op (r :: rs) w (r.exchanges context w) (.error cause, w')
  | orTruthy {r : Run Value} {rs : List (Run Value)} {w w' : World} {v : Value} :
      r.perform context w = (.ok v, w') → v.isTruthy = true →
      StopsEarly context .or (r :: rs) w (r.exchanges context w) (.ok v, w')
  | orFalsy {r : Run Value} {rs : List (Run Value)} {w w' : World} {v : Value}
      {es : List Exchange} {outcome : Except RuntimeError Value × World} :
      r.perform context w = (.ok v, w') → v.isTruthy = false →
      StopsEarly context .or rs w' es outcome →
      StopsEarly context .or (r :: rs) w (r.exchanges context w ++ es) outcome
  | andFalsy {r : Run Value} {rs : List (Run Value)} {w w' : World} {v : Value} :
      r.perform context w = (.ok v, w') → v.isTruthy = false →
      StopsEarly context .and (r :: rs) w (r.exchanges context w) (.ok v, w')
  | andTruthy {r : Run Value} {rs : List (Run Value)} {w w' : World} {v : Value}
      {es : List Exchange} {outcome : Except RuntimeError Value × World} :
      r.perform context w = (.ok v, w') → v.isTruthy = true →
      StopsEarly context .and rs w' es outcome →
      StopsEarly context .and (r :: rs) w (r.exchanges context w ++ es) outcome

namespace StopsEarly

variable {op : LogicalOp} {context : Context} {r : Run Value} {rs : List (Run Value)}
  {w w' : World} {v : Value}

theorem decided (h : r.perform context w = (.ok v, w')) (hv : op.decides v = true) :
    StopsEarly context op (r :: rs) w (r.exchanges context w) (.ok v, w') := by
  cases op with
  | or => exact .orTruthy h hv
  | and => exact .andFalsy h (by simpa [LogicalOp.decides] using hv)

theorem next {es : List Exchange} {outcome : Except RuntimeError Value × World}
    (h : r.perform context w = (.ok v, w')) (hv : op.decides v = false)
    (hrest : StopsEarly context op rs w' es outcome) :
    StopsEarly context op (r :: rs) w (r.exchanges context w ++ es) outcome := by
  cases op with
  | or => exact .orFalsy h hv hrest
  | and => exact .andTruthy h (by simpa [LogicalOp.decides] using hv) hrest

end StopsEarly

namespace LogicalOp

/-- The run that goes through a row of operands, each of which is tested once. -/
def firstDeciding (op : LogicalOp) : Run Value → List (Run Value) → Run Value
  | r, [] => r
  | r, s :: rs => do
    let v ← r
    if op.decides v then return v else op.firstDeciding s rs

theorem firstDeciding_stopsEarly (op : LogicalOp) (context : Context) (r : Run Value)
    (rs : List (Run Value)) (w : World) :
    StopsEarly context op (r :: rs) w ((op.firstDeciding r rs).exchanges context w)
      ((op.firstDeciding r rs).perform context w) := by
  induction rs generalizing r w with
  | nil => exact .last op r w
  | cons s rs ih =>
    rw [firstDeciding, Run.perform_bind, Run.exchanges_bind]
    rcases h : r.perform context w with ⟨cause | v, w'⟩
    · rw [List.append_nil]
      exact .failed h
    · by_cases hv : op.decides v = true
      · have hdecided : StopsEarly context op (r :: s :: rs) w _ _ := .decided h hv
        simpa [hv, pure, Run.exchanges, Run.perform] using hdecided
      · simpa [hv] using StopsEarly.next h (Bool.eq_false_iff.2 hv) (ih s w')

end LogicalOp

namespace Node

/-- The first two operands of a row may be joined: their value is tested twice, but a value that
decides once decides again. -/
theorem firstDeciding_logical (op : LogicalOp) (n m : Node) (rs : List (Run Value)) :
    op.firstDeciding (logical op n m).run rs = op.firstDeciding n.run (m.run :: rs) := by
  cases rs with
  | nil => rfl
  | cons s rs =>
    simp only [LogicalOp.firstDeciding, run, bind_assoc]
    refine congrArg (n.run >>= ·) (funext fun v => ?_)
    by_cases hv : op.decides v = true
    · simp [hv]
    · simp [hv]

theorem run_foldl_logical (op : LogicalOp) (n : Node) (ns : List Node) :
    (ns.foldl (logical op) n).run = op.firstDeciding n.run (ns.map run) := by
  induction ns generalizing n with
  | nil => rfl
  | cons m ns ih => rw [List.foldl_cons, ih, firstDeciding_logical, List.map_cons]

/-- A tree that is nested to the left runs as its operands in a row. -/
theorem foldl_logical_stopsEarly (op : LogicalOp) (n : Node) (ns : List Node) (context : Context)
    (w : World) :
    StopsEarly context op ((n :: ns).map run) w
      ((ns.foldl (logical op) n).run.exchanges context w)
      ((ns.foldl (logical op) n).run.perform context w) := by
  rw [run_foldl_logical]
  exact op.firstDeciding_stopsEarly context n.run (ns.map run) w

end Node

end SigilExpr
