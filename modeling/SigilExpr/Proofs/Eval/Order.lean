import SigilExpr.Proofs.Eval.Exchanges
import SigilExpr.Proofs.Node.Subtrees

/-!
# The order of evaluation

The reads and calls of a tree are its nodes that ask for something, in the order in which nodes come
to a value, and each has its place in this row. A placed run says with every request at which place
of the tree it is made. Without the places it is the run of the tree, so the places say which node
makes a request even where several nodes ask for the same.
-/

set_option autoImplicit false

namespace SigilExpr

/-- What a node asks of its surroundings. -/
inductive Access where
  | read (name : String)
  | readRoot
  | call (name : String)

def Exchange.access : Exchange → Access
  | .read name => .read name
  | .readRoot => .readRoot
  | .call name _ _ => .call name

namespace Node

@[simp]
def access? : Node → Option Access
  | .contextRead name => some (.read name)
  | .contextRoot => some .readRoot
  | .helper name _ => some (.call name)
  | _ => none

/-- The reads and calls of a tree, in the order in which its nodes come to a value. -/
def accesses (n : Node) : List Access := n.nodes.filterMap access?

/-- Whether some of the nodes below a node may be left out. -/
def isChoice : Node → Bool
  | .logical _ _ _ | .conditional _ _ _ => true
  | _ => false

theorem filterMap_nodesAll (ns : List Node) :
    (nodesAll ns).filterMap access? = ns.flatMap accesses := by
  rw [nodesAll_eq_flatMap, List.filterMap_flatMap]
  rfl

section

variable (name : String) (l r o k f t a b : Node) (args : List Node)

theorem accesses_helper :
    (helper name args).accesses = args.flatMap accesses ++ [.call name] := by
  simp [accesses, nodes, filterMap_nodesAll]

theorem accesses_unary (op : UnaryOp) : (unary op o).accesses = o.accesses := by
  simp [accesses, nodes]

theorem accesses_binary (op : BinaryOp) :
    (binary op l r).accesses = l.accesses ++ r.accesses := by
  simp [accesses, nodes]

theorem accesses_logical (op : LogicalOp) :
    (logical op l r).accesses = l.accesses ++ r.accesses := by
  simp [accesses, nodes]

theorem accesses_conditional :
    (conditional t a b).accesses = t.accesses ++ (a.accesses ++ b.accesses) := by
  simp [accesses, nodes]

theorem accesses_member : (member o name).accesses = o.accesses := by
  simp [accesses, nodes]

theorem accesses_index : (index o k).accesses = o.accesses ++ k.accesses := by
  simp [accesses, nodes]

theorem accesses_method :
    (method o name args).accesses = o.accesses ++ args.flatMap accesses := by
  simp [accesses, nodes, filterMap_nodesAll]

theorem accesses_methodAt :
    (methodAt o k args).accesses = o.accesses ++ (k.accesses ++ args.flatMap accesses) := by
  simp [accesses, nodes, filterMap_nodesAll]

theorem accesses_callValue :
    (callValue f args).accesses = f.accesses ++ args.flatMap accesses := by
  simp [accesses, nodes, filterMap_nodesAll]

theorem accesses_array : (array args).accesses = args.flatMap accesses := by
  simp [accesses, nodes, filterMap_nodesAll]

end

end Node

/-- A run that says for each of its requests at which place of a tree it is made. -/
inductive PlacedRun (α : Type) where
  | done (result : Except RuntimeError α)
  | read (place : Nat) (name : String) (next : Option Value → PlacedRun α)
  | readRoot (place : Nat) (next : Value → PlacedRun α)
  | call (place : Nat) (name : String) (args : List Value) (next : Reply → PlacedRun α)

namespace PlacedRun

variable {α β : Type}

def bind : PlacedRun α → (α → PlacedRun β) → PlacedRun β
  | .done (.ok a), f => f a
  | .done (.error e), _ => .done (.error e)
  | .read place name next, f => .read place name fun v => (next v).bind f
  | .readRoot place next, f => .readRoot place fun v => (next v).bind f
  | .call place name args next, f => .call place name args fun r => (next r).bind f

instance : Monad PlacedRun where
  pure a := .done (.ok a)
  bind := PlacedRun.bind

def ofReply (name : String) : Reply → PlacedRun Value
  | .ok v => .done (.ok v)
  | .error .missing => .done (.error (.missingHelper name))
  | .error (.failed cause) => .done (.error (.helper name cause))

def callHelper (place : Nat) (name : String) (args : List Value) : PlacedRun Value :=
  .call place name args (ofReply name)

/-- The run without the places. -/
def forget : PlacedRun α → Run α
  | .done x => .done x
  | .read _ name next => .read name fun v => (next v).forget
  | .readRoot _ next => .readRoot fun v => (next v).forget
  | .call _ name args next => .call name args fun r => (next r).forget

theorem forget_bind (r : PlacedRun α) (f : α → PlacedRun β) :
    (r >>= f).forget = r.forget >>= fun a => (f a).forget := by
  induction r with
  | done x => cases x <;> rfl
  | read place name next ih => exact congrArg (Run.read name) (funext ih)
  | readRoot place next ih => exact congrArg Run.readRoot (funext ih)
  | call place name args next ih => exact congrArg (Run.call name args) (funext ih)

theorem forget_callHelper (place : Nat) (name : String) (args : List Value) :
    (callHelper place name args).forget = Run.callHelper name args := by
  refine congrArg (Run.call name args) (funext fun reply => ?_)
  rcases reply with (_ | cause) | v <;> rfl

end PlacedRun

namespace Node

mutual

/-- The run of a tree whose first read or call has the given place. -/
def placed : Node → Nat → PlacedRun Value
  | .const v, _ => .done (.ok v)
  | .contextRoot, k => .readRoot k fun v => .done (.ok v)
  | .contextRead name, k => .read k name fun v => .done (.ok (v.getD .null))
  | .helper name args, k => do
    let vs ← placedAll args k
    PlacedRun.callHelper (k + (args.flatMap accesses).length) name vs
  | .unary op e, k => do
    let v ← placed e k
    .done (v.applyUnary op)
  | .binary op l r, k => do
    let v ← placed l k
    let w ← placed r (k + l.accesses.length)
    .done (v.applyBinary op w)
  | .logical op l r, k => do
    let v ← placed l k
    if op.decides v then return v else placed r (k + l.accesses.length)
  | .conditional t a b, k => do
    let v ← placed t k
    if v.isTruthy then placed a (k + t.accesses.length)
    else placed b (k + t.accesses.length + a.accesses.length)
  | .member o name, k => do
    let v ← placed o k
    .done (v.property (.string name))
  | .index o key, k => do
    let v ← placed o k
    let w ← placed key (k + o.accesses.length)
    .done (v.property w)
  | .method o name args, k => do
    let v ← placed o k
    let vs ← placedAll args (k + o.accesses.length)
    .done (v.call (.string name) vs)
  | .methodAt o key args, k => do
    let v ← placed o k
    let w ← placed key (k + o.accesses.length)
    let vs ← placedAll args (k + o.accesses.length + key.accesses.length)
    .done (v.call w vs)
  | .callValue f args, k => do
    let v ← placed f k
    let _ ← placedAll args (k + f.accesses.length)
    .done (.error (.notCallable v.plainText))
  | .array items, k => do
    let vs ← placedAll items k
    return .array vs

def placedAll : List Node → Nat → PlacedRun (List Value)
  | [], _ => return []
  | n :: ns, k => do
    let v ← placed n k
    let vs ← placedAll ns (k + n.accesses.length)
    return v :: vs

end

mutual

theorem forget_placed : (n : Node) → (k : Nat) → (n.placed k).forget = n.run
  | .const _, _ | .contextRoot, _ | .contextRead _, _ => rfl
  | .helper _ _, _ => by
    simp only [placed, run, PlacedRun.forget_bind, forget_placedAll, PlacedRun.forget_callHelper]
  | .unary _ _, _ | .binary _ _ _, _ | .member _ _, _ | .index _ _, _ => by
    simp only [placed, run, PlacedRun.forget_bind, forget_placed, PlacedRun.forget]
  | .logical _ _ _, _ => by
    simp only [placed, run, PlacedRun.forget_bind, forget_placed, apply_ite PlacedRun.forget]
    rfl
  | .conditional _ _ _, _ => by
    simp only [placed, run, PlacedRun.forget_bind, forget_placed, apply_ite PlacedRun.forget]
  | .method _ _ _, _ | .methodAt _ _ _, _ | .callValue _ _, _ => by
    simp only [placed, run, PlacedRun.forget_bind, forget_placed, forget_placedAll,
      PlacedRun.forget]
  | .array _, _ => by
    simp only [placed, run, PlacedRun.forget_bind, forget_placedAll]
    rfl

theorem forget_placedAll : (ns : List Node) → (k : Nat) → (placedAll ns k).forget = runAll ns
  | [], _ => rfl
  | _ :: _, _ => by
    simp only [placedAll, runAll, PlacedRun.forget_bind, forget_placed, forget_placedAll]
    rfl

end

end Node

namespace PlacedRun

variable {α β : Type} {context : Context}

/-- With these exchanges, each made at its place, the run comes to its end. -/
inductive Plays (context : Context) :
    PlacedRun α → List (Exchange × Nat) → Except RuntimeError α → Prop where
  | done (x : Except RuntimeError α) : Plays context (.done x) [] x
  | read {place name next ps x} : Plays context (next (context.get name)) ps x →
      Plays context (.read place name next) ((.read name, place) :: ps) x
  | readRoot {place next ps x} : Plays context (next context.root) ps x →
      Plays context (.readRoot place next) ((.readRoot, place) :: ps) x
  | call {place name args next ps x} (reply : Reply) : Plays context (next reply) ps x →
      Plays context (.call place name args next) ((.call name args reply, place) :: ps) x

theorem exists_plays : (r : PlacedRun α) → {es : List Exchange} → {x : Except RuntimeError α} →
    r.forget.Plays context es x → ∃ ps, r.Plays context ps x ∧ ps.map Prod.fst = es
  | .done x, _, _, h => by
    cases h
    exact ⟨[], .done x, rfl⟩
  | .read place name next, _, _, h => by
    cases h with
    | read h =>
      obtain ⟨ps, hps, rfl⟩ := exists_plays _ h
      exact ⟨_, .read hps, rfl⟩
  | .readRoot place next, _, _, h => by
    cases h with
    | readRoot h =>
      obtain ⟨ps, hps, rfl⟩ := exists_plays _ h
      exact ⟨_, .readRoot hps, rfl⟩
  | .call place name args next, _, _, h => by
    cases h with
    | call reply h =>
      obtain ⟨ps, hps, rfl⟩ := exists_plays _ h
      exact ⟨_, .call reply hps, rfl⟩

/-- The requests of the run are among the accesses, each at its place and in their order. Where the
run is exact, it comes to a value only after all of them. -/
def KeepsTo (exact : Prop) : PlacedRun α → List (Access × Nat) → Prop
  | .done x, ps => exact → ∀ a, x = .ok a → ps = []
  | .read place name next, ps => ∃ rest, ((.read name, place) :: rest).Sublist ps ∧
    (exact → (.read name, place) :: rest = ps) ∧ ∀ v, (next v).KeepsTo exact rest
  | .readRoot place next, ps => ∃ rest, ((.readRoot, place) :: rest).Sublist ps ∧
    (exact → (.readRoot, place) :: rest = ps) ∧ ∀ v, (next v).KeepsTo exact rest
  | .call place name _ next, ps => ∃ rest, ((.call name, place) :: rest).Sublist ps ∧
    (exact → (.call name, place) :: rest = ps) ∧ ∀ reply, (next reply).KeepsTo exact rest

namespace KeepsTo

variable {exact : Prop} {ps qs : List (Access × Nat)}

theorem mono {r : PlacedRun α} (hsub : ps.Sublist qs) (heq : exact → ps = qs)
    (h : r.KeepsTo exact ps) : r.KeepsTo exact qs := by
  cases r with
  | done x =>
    intro he a ha
    rw [← heq he]
    exact h he a ha
  | _ =>
    obtain ⟨rest, hrest, hexact, hnext⟩ := h
    exact ⟨rest, hrest.trans hsub, fun he => (hexact he).trans (heq he), hnext⟩

-- By induction on the first run; what goes on after it keeps to the accesses that follow.
theorem bind {f : α → PlacedRun β} (hf : ∀ a, (f a).KeepsTo exact qs) : {r : PlacedRun α} →
    {ps : List (Access × Nat)} → r.KeepsTo exact ps → (r >>= f).KeepsTo exact (ps ++ qs)
  | .done (.ok a), ps, h => by
    apply (hf a).mono (List.sublist_append_right ps qs)
    intro he
    rw [h he a rfl, List.nil_append]
  | .done (.error e), _, _ => fun _ _ h => by cases h
  | .read _ _ _, _, h | .readRoot _ _, _, h | .call _ _ _ _, _, h => by
    obtain ⟨rest, hrest, hexact, hnext⟩ := h
    refine ⟨rest ++ qs, hrest.append (List.Sublist.refl qs), ?_, fun v => bind hf (hnext v)⟩
    intro he
    rw [← hexact he, List.cons_append]

theorem done (x : Except RuntimeError α) : (PlacedRun.done x).KeepsTo exact [] := by
  intro _ _ _
  rfl

theorem map {r : PlacedRun α} (h : r.KeepsTo exact ps) (f : α → Except RuntimeError β) :
    (r >>= fun a => .done (f a)).KeepsTo exact ps := by
  rw [← List.append_nil ps]
  exact bind (fun a => done (f a)) h

theorem callHelper (place : Nat) (name : String) (args : List Value) :
    (PlacedRun.callHelper place name args).KeepsTo exact [(.call name, place)] := by
  refine ⟨[], List.Sublist.refl _, fun _ => rfl, ?_⟩
  intro reply
  rcases reply with (_ | cause) | v <;> exact done _

theorem of_plays {r : PlacedRun α} {qs : List (Exchange × Nat)} {x : Except RuntimeError α}
    (h : r.KeepsTo exact ps) (hplays : r.Plays context qs x) :
    (qs.map (Prod.map Exchange.access id)).Sublist ps ∧
      (exact → ∀ a, x = .ok a → qs.map (Prod.map Exchange.access id) = ps) := by
  induction hplays generalizing ps with
  | done x => exact ⟨List.nil_sublist ps, fun he a ha => (h he a ha).symm⟩
  | read _ ih | readRoot _ ih | call _ _ ih =>
    obtain ⟨rest, hrest, hexact, hnext⟩ := h
    obtain ⟨hsub, heq⟩ := ih (hnext _)
    refine ⟨(hsub.cons_cons _).trans hrest, ?_⟩
    intro he a ha
    rw [← hexact he, List.map_cons, heq he a ha]
    rfl

end KeepsTo

end PlacedRun

namespace Node

open PlacedRun (KeepsTo)

variable {exact : Prop}

mutual

theorem placed_keepsTo : (n : Node) → (k : Nat) →
    (exact → ∀ m ∈ n.nodes, m.isChoice = false) →
    (n.placed k).KeepsTo exact (n.accesses.zipIdx k)
  | .const v, k, _ => .done _
  | .contextRoot, k, _ => ⟨[], List.Sublist.refl _, fun _ => rfl, fun v => .done _⟩
  | .contextRead name, k, _ => ⟨[], List.Sublist.refl _, fun _ => rfl, fun v => .done _⟩
  | .helper name args, k, h => by
    have hargs := placedAll_keepsTo args k fun he m hm => h he m (by simp [nodes, hm])
    rw [accesses_helper, List.zipIdx_append]
    exact .bind (fun vs => .callHelper _ name vs) hargs
  | .unary op e, k, h => by
    have ho := placed_keepsTo e k fun he m hm => h he m (by simp [nodes, hm])
    rw [accesses_unary]
    exact ho.map fun v => v.applyUnary op
  | .binary op l r, k, h => by
    have hl := placed_keepsTo l k fun he m hm => h he m (by simp [nodes, hm])
    have hr := placed_keepsTo r (k + l.accesses.length) fun he m hm =>
      h he m (by simp [nodes, hm])
    rw [accesses_binary, List.zipIdx_append]
    exact .bind (fun v => hr.map fun w => v.applyBinary op w) hl
  | .logical op l r, k, h => by
    have hnot : ¬ exact := fun he => by cases h he _ (self_mem_nodes _)
    have hl := placed_keepsTo l k fun he => absurd he hnot
    have hr := placed_keepsTo r (k + l.accesses.length) fun he => absurd he hnot
    rw [accesses_logical, List.zipIdx_append]
    refine .bind (fun v => ?_) hl
    split
    · exact fun he => absurd he hnot
    · exact hr
  | .conditional t a b, k, h => by
    have hnot : ¬ exact := fun he => by cases h he _ (self_mem_nodes _)
    have ht := placed_keepsTo t k fun he => absurd he hnot
    have ha := placed_keepsTo a (k + t.accesses.length) fun he => absurd he hnot
    have hb := placed_keepsTo b (k + t.accesses.length + a.accesses.length) fun he =>
      absurd he hnot
    rw [accesses_conditional, List.zipIdx_append, List.zipIdx_append]
    refine .bind (fun v => ?_) ht
    split
    · exact ha.mono (List.sublist_append_left _ _) fun he => absurd he hnot
    · exact hb.mono (List.sublist_append_right _ _) fun he => absurd he hnot
  | .member o name, k, h => by
    have ho := placed_keepsTo o k fun he m hm => h he m (by simp [nodes, hm])
    rw [accesses_member]
    exact ho.map fun v => v.property (.string name)
  | .index o key, k, h => by
    have ho := placed_keepsTo o k fun he m hm => h he m (by simp [nodes, hm])
    have hk := placed_keepsTo key (k + o.accesses.length) fun he m hm =>
      h he m (by simp [nodes, hm])
    rw [accesses_index, List.zipIdx_append]
    exact .bind (fun v => hk.map fun w => v.property w) ho
  | .method o name args, k, h => by
    have ho := placed_keepsTo o k fun he m hm => h he m (by simp [nodes, hm])
    have hargs := placedAll_keepsTo args (k + o.accesses.length) fun he m hm =>
      h he m (by simp [nodes, hm])
    rw [accesses_method, List.zipIdx_append]
    exact .bind (fun v => hargs.map fun vs => v.call (.string name) vs) ho
  | .methodAt o key args, k, h => by
    have ho := placed_keepsTo o k fun he m hm => h he m (by simp [nodes, hm])
    have hk := placed_keepsTo key (k + o.accesses.length) fun he m hm =>
      h he m (by simp [nodes, hm])
    have hargs := placedAll_keepsTo args (k + o.accesses.length + key.accesses.length)
      fun he m hm => h he m (by simp [nodes, hm])
    rw [accesses_methodAt, List.zipIdx_append, List.zipIdx_append]
    exact .bind (fun v => .bind (fun w => hargs.map fun vs => v.call w vs) hk) ho
  | .callValue f args, k, h => by
    have hf := placed_keepsTo f k fun he m hm => h he m (by simp [nodes, hm])
    have hargs := placedAll_keepsTo args (k + f.accesses.length) fun he m hm =>
      h he m (by simp [nodes, hm])
    rw [accesses_callValue, List.zipIdx_append]
    exact .bind (fun v => hargs.map fun _ => .error (.notCallable v.plainText)) hf
  | .array items, k, h => by
    have hitems := placedAll_keepsTo items k fun he m hm => h he m (by simp [nodes, hm])
    rw [accesses_array]
    exact hitems.map fun vs => .ok (Value.array vs)

theorem placedAll_keepsTo : (ns : List Node) → (k : Nat) →
    (exact → ∀ m ∈ nodesAll ns, m.isChoice = false) →
    (placedAll ns k).KeepsTo exact ((ns.flatMap accesses).zipIdx k)
  | [], k, _ => .done _
  | n :: ns, k, h => by
    have hn := placed_keepsTo n k fun he m hm => h he m (by simp [nodesAll, hm])
    have hns := placedAll_keepsTo ns (k + n.accesses.length) fun he m hm =>
      h he m (by simp [nodesAll, hm])
    rw [List.flatMap_cons, List.zipIdx_append]
    exact .bind (fun v => hns.map fun vs => .ok (v :: vs)) hn

end

end Node

/-- In every way in which the run of a tree plays out, its requests are made by nodes of the tree
that stand in the order in which nodes come to a value, and none of them by one node twice. If no
node is a choice and the run comes to a value, every node that may ask has asked. Performing the run
in a world is the one such way in which each call is answered by what the helper of its name does
there. -/
theorem evaluation_in_order (n : Node) (context : Context) :
    (n.placed 0).forget = n.run ∧
    (∀ es x, n.run.Plays context es x →
      ∃ ps, (n.placed 0).Plays context ps x ∧ ps.map Prod.fst = es ∧
        (ps.map (Prod.map Exchange.access id)).Sublist n.accesses.zipIdx ∧
        (∀ v, x = .ok v → (∀ m ∈ n.nodes, m.isChoice = false) →
          ps.map (Prod.map Exchange.access id) = n.accesses.zipIdx)) ∧
    ∀ w es x w', n.run.PerformedAs context w es x w' ↔
      n.run.exchanges context w = es ∧ n.run.perform context w = (x, w') := by
  refine ⟨n.forget_placed 0, ?_, fun w es x w' => Run.performedAs_iff⟩
  intro es x h
  rw [← n.forget_placed 0] at h
  obtain ⟨ps, hps, hes⟩ := (n.placed 0).exists_plays h
  obtain ⟨hsub, heq⟩ := (n.placed_keepsTo 0 id).of_plays hps
  exact ⟨ps, hps, hes, hsub, fun v hv hchoice => heq hchoice v hv⟩

/-- The same property is read at two places, before and after a call, and the helper that is called
takes note of that once. -/
theorem evaluation_in_order_sample :
    ∃ (n : Node) (context : Context) (w w' : World) (es : List Exchange) (v : Value),
      n.run.exchanges context w = es ∧ n.run.perform context w = (.ok v, w') ∧
      w'.log = [.read "x", .call "f" [.null], .read "x"] ∧
      (∀ m ∈ n.nodes, m.isChoice = false) ∧
      ∃ ps, (n.placed 0).Plays context ps (.ok v) ∧ ps.map Prod.fst = es ∧
        ps.map (Prod.map Exchange.access id) =
          [(.read "x", 0), (.call "$f", 1), (.read "x", 2)] := by
  let n : Node := .array [.helper "$f" [.contextRead "x"], .contextRead "x"]
  let context : Context := .ofEntries []
  let echo : Helper :=
    .mk none fun args => .note (.call "f" args) (.finish (.ok (args.headD .null)))
  let w : World := ⟨⟨[("$f", echo)]⟩, []⟩
  let called : World := (w.note (.read "x")).note (.call "f" [.null])
  have h : n.run.Plays context [.read "x", .call "$f" [.null] (.ok .null), .read "x"]
      (.ok (Value.array [.null, .null])) := .read (.call _ (.read (.done _)))
  have hbody : (echo.body [.null]).perform World.invoke (w.note (.read "x")) =
      (.ok .null, called) := rfl
  have hundergoes : w.Undergoes [.read "x", .call "$f" [.null] (.ok .null), .read "x"]
      (called.note (.read "x")) := .read (.call (.value rfl hbody) (.read (.nil _)))
  have hchoice : ∀ m ∈ n.nodes, m.isChoice = false := by
    simp [n, Node.nodes, Node.nodesAll, Node.isChoice]
  obtain ⟨-, inOrder, performed⟩ := evaluation_in_order n context
  obtain ⟨ps, hps, hes, -, hexact⟩ := inOrder _ _ h
  obtain ⟨hexchanges, hperform⟩ := (performed w _ _ _).1 ⟨h, hundergoes⟩
  exact ⟨n, context, w, _, _, _, hexchanges, hperform, rfl, hchoice, ps, hps, hes,
    hexact _ rfl hchoice⟩

end SigilExpr
