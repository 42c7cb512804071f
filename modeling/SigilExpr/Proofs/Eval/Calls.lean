import SigilExpr.Proofs.Eval.Induction
import SigilExpr.Proofs.Helper.Growth
import SigilExpr.Proofs.Reference.Agreement

/-!
# The calls of a run

A run calls helpers within a set of names if every call that it can come to, whatever the replies
before it were, is of a name in the set. It misses a helper only if a reply says so. The run of a
compiled tree calls within the names of the tree, and a registry that holds these names at the
start holds them at each call, since it only grows.

Nothing is assumed of the replies: helpers may give any value or error, and register what they like.
-/

set_option autoImplicit false

namespace SigilExpr

namespace Run

variable {α β : Type} {names : String → Prop}

/-- The run calls helpers of `names` only, and it comes to lack a helper only where it was told. -/
def CallsWithin (names : String → Prop) : Run α → Prop
  | .done result => ∀ name, result ≠ .error (.missingHelper name)
  | .read _ next => ∀ v, (next v).CallsWithin names
  | .readRoot next => ∀ v, (next v).CallsWithin names
  | .call name _ next => names name ∧ ∀ reply, reply ≠ .error .missing →
    (next reply).CallsWithin names

namespace CallsWithin

theorem pure (a : α) : (Pure.pure a : Run α).CallsWithin names := by
  intro name h
  cases h

theorem done {x : Except RuntimeError α} (hx : FailsOverValues x) :
    (Run.done x).CallsWithin names := hx.ne_missing

/-- By induction on the first run: the second goes on at each of its ends that gives a value. -/
theorem bind {f : α → Run β} (hf : ∀ a, (f a).CallsWithin names) :
    {r : Run α} → r.CallsWithin names → (r >>= f).CallsWithin names
  | .done (.ok a), _ => hf a
  | .done (.error e), h => by
    intro name he
    cases he
    exact h name rfl
  | .read _ _, h => fun v => bind hf (h v)
  | .readRoot _, h => fun v => bind hf (h v)
  | .call _ _ _, h => ⟨h.1, fun reply hreply => bind hf (h.2 reply hreply)⟩

theorem callHelper {name : String} (hname : names name) (args : List Value) :
    (Run.callHelper name args).CallsWithin names := by
  refine ⟨hname, ?_⟩
  intro reply hreply
  rcases reply with (_ | cause) | v
  · exact absurd rfl hreply
  · exact fun m h => by cases h
  · exact .pure v

theorem closed : Closed (CallsWithin names) := ⟨done, fun hr hf => bind hf hr⟩

end CallsWithin

/-- A run that finds its helpers at the start never misses one. By induction on the run: the
registry of each step holds what that of the step before holds. -/
theorem CallsWithin.perform_ne_missing (context : Context) :
    {r : Run α} → {w : World} → r.CallsWithin names →
    (∀ name, names name → w.registry.contains name = true) →
    ∀ name, (r.perform context w).1 ≠ .error (.missingHelper name)
  | .done _, _, h, _ => h
  | .read name _, w, h, hw => perform_ne_missing context (w := w.note (.read name)) (h _) hw
  | .readRoot _, w, h, hw => perform_ne_missing context (w := w.note .readRoot) (h _) hw
  | .call name args _, w, h, hw => by
    have hreply : (w.call name args).1 ≠ .error .missing := World.call_ne_missing (hw name h.1) args
    have hgrown : ∀ m, names m → (w.call name args).2.registry.contains m = true :=
      fun m hm => World.call_grows name args w (hw m hm)
    have hnext := perform_ne_missing context (h.2 _ hreply) hgrown
    exact hnext

end Run

namespace Node

theorem helperNamesAll_eq_flatMap (ns : List Node) :
    helperNamesAll ns = ns.flatMap helperNames := by
  induction ns with
  | nil => rfl
  | cons n ns ih => rw [helperNamesAll, ih, List.flatMap_cons]

theorem helperNames_subset_of_mem_children {n c : Node} (h : c ∈ n.children) :
    c.helperNames ⊆ n.helperNames := by
  intro name hname
  have hall : name ∈ n.children.flatMap helperNames := List.mem_flatMap.2 ⟨c, h, hname⟩
  cases n with
  | const v | contextRoot | contextRead m => cases h
  | helper m args =>
    rw [helperNames, helperNamesAll_eq_flatMap]
    exact List.mem_cons_of_mem m hall
  | _ => simpa [children, helperNames, helperNamesAll_eq_flatMap] using hall

/-- By induction on the trees below the root: the name of a call stands among those of each tree
that the call is in. -/
theorem mem_helperNames_of_mem_nodes {name : String} {args : List Node} (n : Node) :
    .helper name args ∈ n.nodes → name ∈ n.helperNames := by
  induction n using children_induction with
  | step n ih =>
    rw [nodes_eq_concat, List.mem_append, List.mem_flatMap, List.mem_singleton]
    rintro (⟨c, hc, h⟩ | rfl)
    · exact helperNames_subset_of_mem_children hc (ih c hc h)
    · exact List.mem_cons_self

/-- The run of a tree calls the helpers that the tree names. -/
theorem run_callsWithin {names : String → Prop} (n : Node)
    (h : ∀ name ∈ n.helperNames, names name) : n.run.CallsWithin names := by
  apply run_has Run.CallsWithin.closed
  intro m hm
  cases m with
  | contextRoot => exact fun v => .pure v
  | contextRead name => exact fun v => .pure (v.getD .null)
  | helper name args =>
    intro vs
    exact .callHelper (h name (mem_helperNames_of_mem_nodes n hm)) vs
  | unary op e => exact fun v => v.applyUnary_ne_missing op
  | binary op l r => exact fun v w => v.applyBinary_ne_missing op w
  | _ => trivial

end Node

end SigilExpr
