import SigilExpr.Compiled
import SigilExpr.Proofs.Node.Height

/-!
# How deep the passes go

What follows the reading of a source goes through trees by recursion: the nodes of the expression
are visited to check them and to look up helpers, the expression is compiled, and the compiled tree
is written as text and run. Each of these makes calls only for trees below the one it was called
for. So no more calls are open at a time than the tree is high: of calls that lie deeper nothing is
needed.
-/

set_option autoImplicit false

namespace SigilExpr

section

variable {α β : Type} {step : (α → β) → α → β} {f : α → β} {levels : Nat} {a : α}

/-- The function calls itself as `step` says, and at `a` with at most so many levels of calls one
inside the other: it does not matter what calls on deeper levels would give. -/
structure RecursesWithin (step : (α → β) → α → β) (f : α → β) (levels : Nat) (a : α) : Prop where
  unfolds : ∀ a, f a = step f a
  cuts : ∀ deeper : α → β, step^[levels] deeper a = f a

/-- A recursion whose calls are for what is less high needs no more levels than it is high. -/
theorem recursesWithin_of_height (P : α → Prop) (height : α → Nat) (hf : ∀ a, f a = step f a)
    (hpos : ∀ a, P a → 0 < height a)
    (hstep : ∀ a, P a → ∀ g h : α → β, (∀ c, P c → height c < height a → g c = h c) →
      step g a = step h a)
    (ha : P a) (hheight : height a ≤ levels) : RecursesWithin step f levels a := by
  refine ⟨hf, fun deeper => ?_⟩
  induction levels generalizing a with
  | zero => exact absurd hheight (Nat.not_le.2 (hpos a ha))
  | succ levels ih =>
    rw [Function.iterate_succ_apply', hf a]
    apply hstep a ha
    intro c hc hlt
    exact ih hc (by omega)

theorem findSome?_flatMap {γ : Type} (g : β → Option γ) (h : α → List β) (as : List α) :
    (as.flatMap h).findSome? g = as.findSome? fun a => (h a).findSome? g := by
  induction as with
  | nil => rfl
  | cons a as ih =>
    rw [List.flatMap_cons, List.findSome?_append, ih, List.findSome?_cons]
    cases (h a).findSome? g <;> rfl

theorem findSome?_congr {g h : α → Option β} {as : List α} (hgh : ∀ a ∈ as, g a = h a) :
    as.findSome? g = as.findSome? h := by
  induction as with
  | nil => rfl
  | cons a as ih =>
    obtain ⟨ha, has⟩ := List.forall_mem_cons.1 hgh
    rw [List.findSome?_cons, List.findSome?_cons, ha, ih has]

theorem mapM'_congr {m : Type → Type} [Monad m] {g h : α → m β} {as : List α}
    (hgh : ∀ a ∈ as, g a = h a) : as.mapM' g = as.mapM' h := by
  induction as with
  | nil => rfl
  | cons a as ih =>
    obtain ⟨ha, has⟩ := List.forall_mem_cons.1 hgh
    rw [List.mapM', List.mapM', ha, ih has]

end

namespace SourceExpr

/-- The check of an expression: its root, then the expressions below it. -/
def violationStep (call : SourceExpr → Option Fault) (e : SourceExpr) : Option Fault :=
  match e.restriction? with
  | some r => some (.restricted r e.span.start)
  | none => e.children.findSome? call

theorem violation?_eq_step (e : SourceExpr) : e.violation? = violationStep violation? e := by
  rw [violation?, Expr.nodes_eq_cons, List.findSome?_cons, violationStep]
  cases e.restriction? with
  | some r => rfl
  | none => exact findSome?_flatMap _ _ _

theorem violationStep_congr {g h : SourceExpr → Option Fault} {e : SourceExpr}
    (hgh : ∀ c ∈ e.children, g c = h c) : violationStep g e = violationStep h e := by
  rw [violationStep, violationStep, findSome?_congr hgh]

/-- The helpers that an expression names: it is such a name, or expressions below it have them. -/
def helperUsesStep (call : SourceExpr → List (String × Nat)) :
    SourceExpr → List (String × Nat)
  | .ident mark name =>
    if Reference.ofName name = Reference.helper then [(name, mark.span.start)] else []
  | e => e.children.flatMap call

theorem helperUses_eq_step (e : SourceExpr) : helperUses e = helperUsesStep helperUses e := by
  rw [helperUses, Expr.nodes_eq_cons, List.filterMap_cons, List.filterMap_flatMap]
  cases e with
  | ident mark name =>
    rw [helperUsesStep]
    split
    · next h => simp_all [Expr.children]
    · next h => simp_all [Expr.children]
  | _ => rfl

theorem helperUsesStep_congr {g h : SourceExpr → List (String × Nat)} {e : SourceExpr}
    (hgh : ∀ c ∈ e.children, g c = h c) : helperUsesStep g e = helperUsesStep h e := by
  cases e with
  | ident _ _ => rfl
  | _ => exact List.flatMap_congr hgh

/-- The tree of an expression from the trees of the expressions below it. -/
def toNodeStep (call : SourceExpr → Except Fault Node) : SourceExpr → Except Fault Node
  | .number mark x =>
    match Number.ofBinary64? x with
    | some n => .ok (.const (.number n))
    | none => .error (.malformed .numberOutOfRange mark.span)
  | .string _ s => .ok (.const (.string s))
  | .bool _ b => .ok (.const (.bool b))
  | .null _ => .ok (.const .null)
  | .ident _ name => .ok (.ofName name)
  | .unary _ op e => do return .unary op (← call e)
  | .binary _ op l r => do return .binary op (← call l) (← call r)
  | .logical _ op l r => do return .logical op (← call l) (← call r)
  | .conditional _ t a b => do return .conditional (← call t) (← call a) (← call b)
  | .member _ object name =>
    if object.refersTo .contextRoot then .ok (.contextRead name)
    else do return .member (← call object) name
  | .index _ object key => do return .index (← call object) (← call key)
  | .array _ items => do return .array (← items.mapM' call)
  | .call _ callee args => do
    let args ← args.mapM' call
    match callee with
    | .member _ object name => return .method (← call object) name args
    | .index _ object key => return .methodAt (← call object) (← call key) args
    | .ident _ name =>
      if Reference.ofName name = .helper then return .helper name args
      else return .callValue (.ofName name) args
    | callee => return .callValue (← call callee) args

theorem toNodes_eq_mapM' (es : List SourceExpr) : toNodes es = es.mapM' toNode := by
  induction es with
  | nil => rfl
  | cons e es ih => rw [toNodes, List.mapM', ih]

theorem toNode_eq_step (e : SourceExpr) : e.toNode = toNodeStep toNode e := by
  cases e with
  | number _ x => cases h : Number.ofBinary64? x <;> simp only [toNode, toNodeStep, h]
  | call _ callee args => cases callee <;> simp only [toNode, toNodeStep, toNodes_eq_mapM']
  | array _ items => rw [toNode, toNodeStep, toNodes_eq_mapM']
  | _ => rw [toNode, toNodeStep]

/-- Lowering a node makes calls for nodes below it only, where a call of a property makes them for
the parts of the property. -/
theorem toNodeStep_congr {g h : SourceExpr → Except Fault Node} {e : SourceExpr}
    (hgh : ∀ d ∈ e.descendants, g d = h d) : toNodeStep g e = toNodeStep h e := by
  have hchild : ∀ d ∈ e.children, g d = h d :=
    fun d hd => hgh d (Expr.mem_descendants_of_mem_children hd)
  cases e with
  | array _ items =>
    have hitems : items.mapM' g = items.mapM' h := mapM'_congr hchild
    rw [toNodeStep, toNodeStep, hitems]
  | call _ callee args =>
    obtain ⟨hcallee, hargs⟩ := List.forall_mem_cons.1 hchild
    have hparts : ∀ d ∈ callee.children, g d = h d := by
      intro d hd
      exact hgh d (Expr.mem_descendants_iff.2 ⟨callee, List.mem_cons_self,
        Expr.nodes_subset_of_mem_children hd d.self_mem_nodes⟩)
    rw [toNodeStep, toNodeStep, mapM'_congr hargs]
    cases callee with
    | member _ _ _ | index _ _ _ =>
      simp only [Expr.children, List.forall_mem_cons] at hparts
      simp [hparts]
    | ident _ _ => rfl
    | _ => simp [hcallee]
  | _ =>
    simp only [Expr.children, List.forall_mem_cons] at hchild
    simp [toNodeStep, hchild]

end SourceExpr

namespace Node

/-- The text of a tree from the texts of the trees below it. -/
def textStep (call : Node → String) : Node → String
  | .const v => v.text
  | .contextRoot => "$"
  | .contextRead name => "$" ++ propertyText name
  | .helper name args => "await _." ++ name ++ argsText ("_" :: args.map call)
  | .unary op e => "(" ++ unaryText op ++ call e ++ ")"
  | .binary op l r => infixText (call l) op.spelling (call r)
  | .logical op l r => infixText (call l) op.spelling (call r)
  | .conditional t a b => "(" ++ call t ++ " ? " ++ call a ++ " : " ++ call b ++ ")"
  | .member o name => call o ++ propertyText name
  | .index o k => call o ++ "[" ++ call k ++ "]"
  | .method o name args => call o ++ propertyText name ++ argsText (args.map call)
  | .methodAt o k args => call o ++ "[" ++ call k ++ "]" ++ argsText (args.map call)
  | .callValue f args => call f ++ argsText (args.map call)
  | .array items => "[" ++ ", ".intercalate (items.map call) ++ "]"

theorem textAll_eq_map (ns : List Node) : textAll ns = ns.map text := by
  induction ns with
  | nil => rfl
  | cons n ns ih => rw [textAll, ih, List.map_cons]

theorem text_eq_step (n : Node) : n.text = textStep text n := by
  cases n <;> simp only [text, textStep, textAll_eq_map]

theorem textStep_congr {g h : Node → String} {n : Node} (hgh : ∀ c ∈ n.children, g c = h c) :
    textStep g n = textStep h n := by
  cases n with
  | const _ | contextRoot | contextRead _ => rfl
  | helper _ args | array args =>
    have hargs : args.map g = args.map h := List.map_congr_left hgh
    simp only [textStep, hargs]
  | method o _ args | callValue o args =>
    obtain ⟨ho, hargs⟩ := List.forall_mem_cons.1 hgh
    simp only [textStep, ho, List.map_congr_left hargs]
  | methodAt o k args =>
    obtain ⟨ho, hgh⟩ := List.forall_mem_cons.1 hgh
    obtain ⟨hk, hargs⟩ := List.forall_mem_cons.1 hgh
    simp only [textStep, ho, hk, List.map_congr_left hargs]
  | _ =>
    simp only [children, List.forall_mem_cons] at hgh
    simp [textStep, hgh]

/-- The run of a tree from the runs of the trees below it. -/
def runStep (call : Node → Run Value) : Node → Run Value
  | .const v => .done (.ok v)
  | .contextRoot => .readRoot fun v => .done (.ok v)
  | .contextRead name => .read name fun v => .done (.ok (v.getD .null))
  | .helper name args => do
    let args ← args.mapM' call
    Run.callHelper name args
  | .unary op operand => do
    let v ← call operand
    .done (v.applyUnary op)
  | .binary op left right => do
    let v ← call left
    let w ← call right
    .done (v.applyBinary op w)
  | .logical op left right => do
    let v ← call left
    if op.decides v then return v else call right
  | .conditional test consequent alternate => do
    let v ← call test
    if v.isTruthy then call consequent else call alternate
  | .member object name => do
    let v ← call object
    .done (v.property (.string name))
  | .index object key => do
    let v ← call object
    let k ← call key
    .done (v.property k)
  | .method object name args => do
    let v ← call object
    let args ← args.mapM' call
    .done (v.call (.string name) args)
  | .methodAt object key args => do
    let v ← call object
    let k ← call key
    let args ← args.mapM' call
    .done (v.call k args)
  | .callValue callee args => do
    let v ← call callee
    let _ ← args.mapM' call
    .done (.error (.notCallable v.plainText))
  | .array items => do
    let vs ← items.mapM' call
    return .array vs

theorem runAll_eq_mapM' (ns : List Node) : runAll ns = ns.mapM' run := by
  induction ns with
  | nil => rfl
  | cons n ns ih => rw [runAll, List.mapM', ih]

theorem run_eq_step (n : Node) : n.run = runStep run n := by
  cases n <;> simp only [run, runStep, runAll_eq_mapM']

theorem runStep_congr {g h : Node → Run Value} {n : Node} (hgh : ∀ c ∈ n.children, g c = h c) :
    runStep g n = runStep h n := by
  cases n with
  | const _ | contextRoot | contextRead _ => rfl
  | helper _ args | array args =>
    have hargs : args.mapM' g = args.mapM' h := mapM'_congr hgh
    simp only [runStep, hargs]
  | method o _ args | callValue o args =>
    obtain ⟨ho, hargs⟩ := List.forall_mem_cons.1 hgh
    simp only [runStep, ho, mapM'_congr hargs]
  | methodAt o k args =>
    obtain ⟨ho, hgh⟩ := List.forall_mem_cons.1 hgh
    obtain ⟨hk, hargs⟩ := List.forall_mem_cons.1 hgh
    simp only [runStep, ho, hk, mapM'_congr hargs]
  | _ =>
    simp only [children, List.forall_mem_cons] at hgh
    simp [runStep, hgh]

end Node

namespace SourceExpr

variable {α : Type} {step : (SourceExpr → α) → SourceExpr → α} {f : SourceExpr → α}

theorem Measured.recursesWithin {e : SourceExpr} {limit : Nat} (he : Measured e)
    (hlimit : e.height ≤ limit) (hf : ∀ e, f e = step f e)
    (hstep : ∀ (g h : SourceExpr → α) (e : SourceExpr), (∀ d ∈ e.descendants, g d = h d) →
      step g e = step h e) : RecursesWithin step f limit e := by
  refine recursesWithin_of_height Measured height hf
    (fun _ => Measured.height_pos) ?_ he hlimit
  intro e he g h hgh
  apply hstep
  intro d hd
  exact hgh d (he.of_mem_nodes (e.descendants_subset_nodes hd)) (he.height_lt_of_mem_descendants hd)

end SourceExpr

theorem Node.recursesWithin {α : Type} {step : (Node → α) → Node → α} {f : Node → α} {n : Node}
    {limit : Nat} (hlimit : n.height ≤ limit) (hf : ∀ n, f n = step f n)
    (hstep : ∀ (g h : Node → α) (n : Node), (∀ c ∈ n.children, g c = h c) →
      step g n = step h n) : RecursesWithin step f limit n := by
  refine recursesWithin_of_height (fun _ => True) height hf
    (fun n _ => n.height_pos) ?_ trivial hlimit
  intro n _ g h hgh
  apply hstep
  intro c hc
  exact hgh c trivial (height_lt_of_mem_children hc)

/-- Every node of an expression that has been read has its height noted, and none is higher than the
limit. The compiled tree is no higher than the expression. So the check, the search for helpers and
the lowering of the expression, and the text and the run of its tree go no more levels down than the
limit says. -/
theorem passes_within_limit {limit : Nat} {source : List Char} {e : SourceExpr}
    (h : SourceExpr.ofText limit source = .ok e) :
    (∀ n : SourceExpr, n ∈ e.nodes →
      n.height = 1 + Parser.maxHeight n.children ∧ n.height ≤ limit) ∧
    RecursesWithin SourceExpr.violationStep SourceExpr.violation? limit e ∧
    RecursesWithin SourceExpr.helperUsesStep SourceExpr.helperUses limit e ∧
    RecursesWithin SourceExpr.toNodeStep SourceExpr.toNode limit e ∧
    ∀ n, e.toNode = .ok n → n.height ≤ e.height ∧
      RecursesWithin Node.textStep Node.text limit n ∧
      RecursesWithin Node.runStep Node.run limit n := by
  obtain ⟨he, hlimit⟩ := SourceExpr.measured_of_ofText h
  have hroot : e.height ≤ limit := hlimit e e.self_mem_nodes
  refine ⟨fun n hn => ⟨he n hn, hlimit n hn⟩,
    he.recursesWithin hroot SourceExpr.violation?_eq_step ?_,
    he.recursesWithin hroot SourceExpr.helperUses_eq_step ?_,
    he.recursesWithin hroot SourceExpr.toNode_eq_step fun g h e => SourceExpr.toNodeStep_congr, ?_⟩
  · intro g h e hgh
    exact SourceExpr.violationStep_congr fun c hc =>
      hgh c (Expr.mem_descendants_of_mem_children hc)
  · intro g h e hgh
    exact SourceExpr.helperUsesStep_congr fun c hc =>
      hgh c (Expr.mem_descendants_of_mem_children hc)
  · intro n hn
    have hheight : n.height ≤ e.height := (SourceExpr.lowers_of_toNode e hn).height_le he
    have hn : n.height ≤ limit := Nat.le_trans hheight hroot
    exact ⟨hheight, Node.recursesWithin hn Node.text_eq_step fun g h n => Node.textStep_congr,
      Node.recursesWithin hn Node.run_eq_step fun g h n => Node.runStep_congr⟩

/-- A call of a property makes a tree that is less high, with a group in its argument. -/
theorem passes_within_limit_sample :
    ∃ (e : SourceExpr) (n : Node), SourceExpr.ofText 3 "x.f(($.a))".toList = .ok e ∧
      (∀ d : SourceExpr, d ∈ e.nodes → d.height ≤ 3) ∧ e.height = 3 ∧ e.toNode = .ok n ∧
      n.height ≤ e.height ∧ n.height = 2 ∧
      RecursesWithin SourceExpr.toNodeStep SourceExpr.toNode 3 e ∧
      RecursesWithin Node.runStep Node.run 3 n := by
  let e : SourceExpr := .call ⟨⟨0, 10⟩, 3⟩ (.member ⟨⟨0, 3⟩, 2⟩ (.ident ⟨⟨0, 1⟩, 1⟩ "x") "f")
    [.member ⟨⟨4, 9⟩, 2⟩ (.ident ⟨⟨5, 6⟩, 1⟩ "$") "a"]
  let n : Node := .method (.contextRead "x") "f" [.contextRead "a"]
  have he : SourceExpr.ofText 3 "x.f(($.a))".toList = .ok e := rfl
  have hn : e.toNode = .ok n := rfl
  obtain ⟨hheights, -, -, hlower, hnode⟩ := passes_within_limit he
  obtain ⟨hle, -, hrun⟩ := hnode n hn
  exact ⟨e, n, he, fun d hd => (hheights d hd).2, rfl, hn, hle, rfl, hlower, hrun⟩

end SigilExpr
