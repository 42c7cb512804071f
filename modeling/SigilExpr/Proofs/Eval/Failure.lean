import SigilExpr.Proofs.Eval.Exchanges
import SigilExpr.Proofs.Eval.Induction

/-!
# The failure of a helper

A run is cut by a failing helper if every call that it can come to ends it when the helper fails,
with the error that names the helper. The run of a tree is, whatever stands around the call.
-/

set_option autoImplicit false

namespace SigilExpr

namespace Run

variable {α β : Type} {context : Context}

/-- Nothing follows a call whose helper fails, and the failure is the result. -/
def IsCut : Run α → Prop
  | .done _ => True
  | .read _ next => ∀ v, (next v).IsCut
  | .readRoot next => ∀ v, (next v).IsCut
  | .call name _ next =>
    (∀ cause, next (.error (.failed cause)) = .done (.error (.helper name cause))) ∧
      ∀ reply, (next reply).IsCut

namespace IsCut

theorem bind {f : α → Run β} (hf : ∀ a, (f a).IsCut) : {r : Run α} → r.IsCut → (r >>= f).IsCut
  | .done (.ok a), _ => hf a
  | .done (.error _), _ => trivial
  | .read _ _, h => fun v => bind hf (h v)
  | .readRoot _, h => fun v => bind hf (h v)
  | .call _ _ _, h => by
    obtain ⟨hfailed, hnext⟩ := h
    constructor
    · intro cause
      exact congrArg (·.bind f) (hfailed cause)
    · intro reply
      exact bind hf (hnext reply)

theorem callHelper (name : String) (args : List Value) : (Run.callHelper name args).IsCut := by
  constructor
  · intro cause
    rfl
  · intro reply
    rcases reply with (_ | cause) | v <;> trivial

theorem closed : Closed IsCut := ⟨fun _ => trivial, fun hr hf => bind hf hr⟩

theorem eq_of_plays {r : Run α} (hr : r.IsCut) {before after : List Exchange} {name : String}
    {args : List Value} {cause : HelperError} {x : Except RuntimeError α}
    (h : r.Plays context (before ++ .call name args (.error (.failed cause)) :: after) x) :
    x = .error (.helper name cause) ∧ after = [] := by
  -- every exchange before the call that fails leads to a run that is cut, too
  induction before generalizing r with
  | nil =>
    cases h with
    | call _ h =>
      rw [hr.1 cause] at h
      cases h
      exact ⟨rfl, rfl⟩
  | cons e before ih =>
    cases h with
    | read h => exact ih (hr _) h
    | readRoot h => exact ih (hr _) h
    | call given h => exact ih (hr.2 given) h

end IsCut

end Run

theorem Node.run_isCut (n : Node) : n.run.IsCut := by
  apply run_has Run.IsCut.closed
  intro m _
  cases m with
  | contextRoot => exact fun _ => trivial
  | contextRead name => exact fun _ => trivial
  | helper name args => exact Run.IsCut.callHelper name
  | unary op e => exact fun _ => trivial
  | binary op l r => exact fun _ _ => trivial
  | _ => trivial

/-- Two ways in which the run of a tree plays out, with the same replies up to a call that fails in
the first: there the first one ends with the failure of that helper, and it asks for just what the
second one asks for up to and with that call. Performing the run in a world is the one such way in
which each call is answered by what the helper of its name does there. -/
theorem failure_cuts_run (n : Node) (context : Context) :
    (∀ before name args cause after x fs y,
      n.run.Plays context (before ++ .call name args (.error (.failed cause)) :: after) x →
      n.run.Plays context fs y →
      before.filterMap Exchange.reply? <+: fs.filterMap Exchange.reply? →
      x = .error (.helper name cause) ∧ after = [] ∧
        ∃ reply rest, fs = before ++ .call name args reply :: rest) ∧
    ∀ w es x w', n.run.PerformedAs context w es x w' ↔
      n.run.exchanges context w = es ∧ n.run.perform context w = (x, w') := by
  refine ⟨?_, fun w es x w' => Run.performedAs_iff⟩
  intro before name args cause after x fs y hx hy halike
  obtain ⟨hresult, hafter⟩ := n.run_isCut.eq_of_plays hx
  exact ⟨hresult, hafter, hx.exists_append hy halike⟩

/-- The helper on the left takes note of its call and fails, and the right operand is not read. It
is read where the same helper gives a falsy value. -/
theorem failure_cuts_run_sample :
    ∃ (n : Node) (context : Context) (cause : HelperError) (w w' : World)
      (x y : Except RuntimeError Value) (rest : List Exchange),
      n.run.Plays context ([.read "x"] ++ .call "$f" [.null] (.error (.failed cause)) :: []) x ∧
      n.run.Plays context ([.read "x"] ++ .call "$f" [.null] (.ok .null) :: rest) y ∧
      rest.length = 1 ∧ x = .error (.helper "$f" cause) ∧
      n.run.exchanges context w = [.read "x", .call "$f" [.null] (.error (.failed cause))] ∧
      n.run.perform context w = (x, w') ∧ w'.log = [.read "x", .call "f" [.null]] := by
  let n : Node := .logical .or (.helper "$f" [.contextRead "x"]) (.contextRead "y")
  let context : Context := .ofEntries []
  let cause : HelperError := .failed "no"
  let failing : Helper :=
    .mk none fun args => .note (.call "f" args) (.finish (.error cause))
  let w : World := ⟨⟨[("$f", failing)]⟩, []⟩
  let noted : World := (w.note (.read "x")).note (.call "f" [.null])
  have hx : n.run.Plays context
      ([.read "x"] ++ .call "$f" [.null] (.error (.failed cause)) :: [])
      (.error (.helper "$f" cause)) := .read (.call _ (.done _))
  have hy : n.run.Plays context ([.read "x"] ++ .call "$f" [.null] (.ok .null) :: [.read "y"])
      (.ok .null) := .read (.call _ (.read (.done _)))
  have hbody : (failing.body [.null]).perform World.invoke (w.note (.read "x")) =
      (.error cause, noted) := rfl
  have hundergoes : w.Undergoes [.read "x", .call "$f" [.null] (.error (.failed cause))] noted :=
    .read (.call (.error rfl hbody) (.nil noted))
  obtain ⟨cuts, performed⟩ := failure_cuts_run n context
  obtain ⟨hresult, -, -⟩ := cuts [.read "x"] "$f" [.null] cause [] _ _ _ hx hy ⟨[_], rfl⟩
  obtain ⟨hexchanges, hperform⟩ := (performed w _ _ noted).1 ⟨hx, hundergoes⟩
  exact ⟨n, context, cause, w, noted, _, _, [.read "y"], hx, hy, rfl, hresult, hexchanges,
    hperform, rfl⟩

end SigilExpr
