import SigilExpr.Proofs.Engine.Compile
import SigilExpr.Proofs.Eval.Order

/-!
# What an evaluation depends on

A compiled expression depends on the properties that its tree reads, on the whole context only if
its tree asks for it, and on the helpers that it lists. Two runs of it in surroundings that agree on
these go through the same exchanges to the same end, whatever else the surroundings hold.

Helpers that use the registry they are called on are left out: such a helper can tell two registries
apart that agree on its own name.
-/

set_option autoImplicit false

namespace SigilExpr

/-- What a helper does without a registry: it takes notes and comes to an end. -/
def Action.IsSelfContained : Action → Prop
  | .finish _ => True
  | .note _ next => next.IsSelfContained
  | .names _ | .register _ _ _ | .invoke _ _ _ => False

/-- The helper makes no use of the registry that it is called on, whatever the arguments. -/
def Helper.IsSelfContained (h : Helper) : Prop := ∀ args, (h.body args).IsSelfContained

/-- The world with some more events in its log. -/
def World.noteAll (w : World) (es : List Event) : World := { w with log := w.log ++ es }

@[simp] theorem World.noteAll_nil (w : World) : w.noteAll [] = w := by
  simp [noteAll]

theorem World.noteAll_noteAll (w : World) (es fs : List Event) :
    (w.noteAll es).noteAll fs = w.noteAll (es ++ fs) := by
  simp [noteAll]

/-- What a helper does without a registry is the same in all worlds. -/
theorem Action.IsSelfContained.exists_perform : {a : Action} → a.IsSelfContained →
    ∃ result es, ∀ call w, a.perform call w = (result, w.noteAll es)
  | .finish result, _ => ⟨result, [], fun _ w => by rw [World.noteAll_nil]; rfl⟩
  | .note e next, h => by
    obtain ⟨result, es, hnext⟩ := exists_perform (a := next) h
    refine ⟨result, e :: es, ?_⟩
    intro call w
    rw [Action.perform, hnext]
    exact congrArg (Prod.mk result) (w.noteAll_noteAll [e] es)

/-- Surroundings agree on what may be asked of them, and the helpers that may be called are
self-contained. -/
structure Agree (asks : Access → Prop) (context₁ context₂ : Context) (r₁ r₂ : Registry) :
    Prop where
  get : ∀ name, asks (.read name) → context₁.get name = context₂.get name
  root : asks .readRoot → context₁.root = context₂.root
  find : ∀ name, asks (.call name) → r₁.find? name = r₂.find? name
  isSelfContained : ∀ name, asks (.call name) → ∀ h, r₁.find? name = some h → h.IsSelfContained

section

variable {asks : Access → Prop} {context₁ context₂ : Context} {w₁ w₂ : World}

/-- A call is answered alike in both worlds, which take note of the same. -/
theorem Agree.call (h : Agree asks context₁ context₂ w₁.registry w₂.registry) {name : String}
    (hname : asks (.call name)) (args : List Value) :
    ∃ reply es, w₁.call name args = (reply, w₁.noteAll es) ∧
      w₂.call name args = (reply, w₂.noteAll es) := by
  have hfind := h.find name hname
  cases hhelper : w₁.registry.find? name with
  | none =>
    have hmissing : w₂.registry.find? name = none := by rw [← hfind, hhelper]
    exact ⟨.error .missing, [], by simp [World.call, hhelper], by simp [World.call, hmissing]⟩
  | some helper =>
    have hhelper₂ : w₂.registry.find? name = some helper := by rw [← hfind, hhelper]
    obtain ⟨result, es, hperform⟩ :=
      (h.isSelfContained name hname helper hhelper args).exists_perform
    cases result with
    | ok v =>
      exact ⟨.ok v, es, by simp [World.call, hhelper, hperform],
        by simp [World.call, hhelper₂, hperform]⟩
    | error cause =>
      exact ⟨.error (.failed cause), es, by simp [World.call, hhelper, hperform],
        by simp [World.call, hhelper₂, hperform]⟩

end

namespace Run

variable {α β : Type} {asks : Access → Prop}

/-- Whatever the answers are, the run asks for nothing else. -/
def AsksOnly (asks : Access → Prop) : Run α → Prop
  | .done _ => True
  | .read name next => asks (.read name) ∧ ∀ v, (next v).AsksOnly asks
  | .readRoot next => asks .readRoot ∧ ∀ v, (next v).AsksOnly asks
  | .call name _ next => asks (.call name) ∧ ∀ reply, (next reply).AsksOnly asks

namespace AsksOnly

theorem bind {f : α → Run β} (hf : ∀ a, (f a).AsksOnly asks) :
    {r : Run α} → r.AsksOnly asks → (r >>= f).AsksOnly asks
  | .done (.ok a), _ => hf a
  | .done (.error _), _ => trivial
  | .read _ _, h => ⟨h.1, fun v => bind hf (h.2 v)⟩
  | .readRoot _, h => ⟨h.1, fun v => bind hf (h.2 v)⟩
  | .call _ _ _, h => ⟨h.1, fun reply => bind hf (h.2 reply)⟩

theorem callHelper {name : String} (h : asks (.call name)) (args : List Value) :
    (Run.callHelper name args).AsksOnly asks := by
  refine ⟨h, ?_⟩
  intro reply
  rcases reply with (_ | cause) | v <;> trivial

theorem closed : Closed (AsksOnly asks) := ⟨fun _ => trivial, fun hr hf => bind hf hr⟩

/-- A run goes the same way in surroundings that agree on what it asks for. By induction on the run:
what it has asked for so far has changed the worlds in their logs alone, so they still agree. -/
theorem perform_alike {context₁ context₂ : Context} {r : Run α} (hr : r.AsksOnly asks)
    (w₁ w₂ : World) (h : Agree asks context₁ context₂ w₁.registry w₂.registry) :
    ∃ x es, r.perform context₁ w₁ = (x, w₁.noteAll es) ∧
      r.perform context₂ w₂ = (x, w₂.noteAll es) ∧
      r.exchanges context₁ w₁ = r.exchanges context₂ w₂ := by
  induction r generalizing w₁ w₂ with
  | done x => exact ⟨x, [], by simp [perform], by simp [perform], rfl⟩
  | read name next ih =>
    obtain ⟨hname, hnext⟩ := hr
    obtain ⟨x, es, h₁, h₂, hes⟩ := ih (context₂.get name) (hnext _)
      (w₁.note (.read name)) (w₂.note (.read name)) h
    refine ⟨x, .read name :: es, ?_, ?_, ?_⟩
    · rw [perform, h.get name hname, h₁]
      exact congrArg (Prod.mk x) (w₁.noteAll_noteAll [.read name] es)
    · rw [perform, h₂]
      exact congrArg (Prod.mk x) (w₂.noteAll_noteAll [.read name] es)
    · rw [exchanges, h.get name hname, hes, exchanges]
  | readRoot next ih =>
    obtain ⟨hroot, hnext⟩ := hr
    obtain ⟨x, es, h₁, h₂, hes⟩ := ih context₂.root (hnext _)
      (w₁.note .readRoot) (w₂.note .readRoot) h
    refine ⟨x, .readRoot :: es, ?_, ?_, ?_⟩
    · rw [perform, h.root hroot, h₁]
      exact congrArg (Prod.mk x) (w₁.noteAll_noteAll [.readRoot] es)
    · rw [perform, h₂]
      exact congrArg (Prod.mk x) (w₂.noteAll_noteAll [.readRoot] es)
    · rw [exchanges, h.root hroot, hes, exchanges]
  | call name args next ih =>
    obtain ⟨hname, hnext⟩ := hr
    obtain ⟨reply, ds, hcall₁, hcall₂⟩ := h.call hname args
    obtain ⟨x, es, h₁, h₂, hes⟩ := ih reply (hnext _)
      (w₁.noteAll ds) (w₂.noteAll ds) h
    refine ⟨x, ds ++ es, ?_, ?_, ?_⟩
    · simp only [perform, hcall₁]
      rw [h₁, World.noteAll_noteAll]
    · simp only [perform, hcall₂]
      rw [h₂, World.noteAll_noteAll]
    · simp only [exchanges, hcall₁, hcall₂]
      rw [hes]

end AsksOnly

end Run

namespace Node

theorem mem_accesses_iff {n : Node} {a : Access} :
    a ∈ n.accesses ↔ ∃ m ∈ n.nodes, m.access? = some a :=
  List.mem_filterMap

/-- The run of a tree asks for what nodes of the tree ask for. -/
theorem run_asksOnly {asks : Access → Prop} (n : Node) (h : ∀ a ∈ n.accesses, asks a) :
    n.run.AsksOnly asks := by
  apply run_has Run.AsksOnly.closed
  intro m hm
  have hasks : ∀ a, m.access? = some a → asks a := fun a ha => h a (mem_accesses_iff.2 ⟨m, hm, ha⟩)
  cases m with
  | contextRoot => exact ⟨hasks _ rfl, fun _ => trivial⟩
  | contextRead name => exact ⟨hasks _ rfl, fun _ => trivial⟩
  | helper name args => exact .callHelper (hasks _ rfl)
  | unary op e => exact fun _ => trivial
  | binary op l r => exact fun _ _ => trivial
  | _ => trivial

theorem contextRead_mem_of_accesses {n : Node} {name : String} (h : .read name ∈ n.accesses) :
    .contextRead name ∈ n.nodes := by
  obtain ⟨m, hm, haccess⟩ := mem_accesses_iff.1 h
  cases m with
  | contextRead m => cases haccess; exact hm
  | _ => cases haccess

theorem contextRoot_mem_of_accesses {n : Node} (h : .readRoot ∈ n.accesses) :
    .contextRoot ∈ n.nodes := by
  obtain ⟨m, hm, haccess⟩ := mem_accesses_iff.1 h
  cases m with
  | contextRoot => exact hm
  | _ => cases haccess

theorem mem_helperNames_of_accesses {n : Node} {name : String} (h : .call name ∈ n.accesses) :
    name ∈ n.helperNames := by
  obtain ⟨m, hm, haccess⟩ := mem_accesses_iff.1 h
  cases m with
  | helper m args => cases haccess; exact mem_helperNames_of_mem_nodes n hm
  | _ => cases haccess

end Node

/-- A compiled expression in two contexts that agree on the properties that its tree reads, and on
the whole context if its tree has a node for that, and on two registries that agree on the helpers
that it lists: where these helpers make no use of a registry, both runs ask for the same in the same
order, come to the same value or error, and leave nothing but the same events in the logs. -/
theorem evaluation_is_local {registry : Registry} {limits : Limits} {source : String}
    {c : Compiled} (hc : Compiled.ofSource registry limits source = .ok c)
    {context₁ context₂ : Context} {w₁ w₂ : World}
    (hget : ∀ name, .contextRead name ∈ c.root.nodes → context₁.get name = context₂.get name)
    (hroot : .contextRoot ∈ c.root.nodes → context₁.root = context₂.root)
    (hfind : ∀ name ∈ c.helpers, w₁.registry.find? name = w₂.registry.find? name)
    (hcontained : ∀ name ∈ c.helpers, ∀ h, w₁.registry.find? name = some h → h.IsSelfContained) :
    (c.run context₁ w₁).1 = (c.run context₂ w₂).1 ∧
    c.root.run.exchanges context₁ w₁ = c.root.run.exchanges context₂ w₂ ∧
    ∃ es, (c.run context₁ w₁).2 = w₁.noteAll es ∧ (c.run context₂ w₂).2 = w₂.noteAll es := by
  obtain ⟨hhelpers, -⟩ := Compiled.helpers_of_ofSource hc
  have hlisted : ∀ name, .call name ∈ c.root.accesses → name ∈ c.helpers :=
    fun name h => (hhelpers name).2 (Node.mem_helperNames_of_accesses h)
  have hagree : Agree (· ∈ c.root.accesses) context₁ context₂ w₁.registry w₂.registry := {
    get := fun name h => hget name (Node.contextRead_mem_of_accesses h)
    root := fun h => hroot (Node.contextRoot_mem_of_accesses h)
    find := fun name h => hfind name (hlisted name h)
    isSelfContained := fun name h => hcontained name (hlisted name h) }
  obtain ⟨x, es, h₁, h₂, hes⟩ := (c.root.run_asksOnly fun _ h => h).perform_alike w₁ w₂ hagree
  cases x with
  | ok v => exact ⟨by simp [Compiled.run, h₁, h₂], hes, es, by simp [Compiled.run, h₁],
      by simp [Compiled.run, h₂]⟩
  | error cause => exact ⟨by simp [Compiled.run, h₁, h₂], hes, es, by simp [Compiled.run, h₁],
      by simp [Compiled.run, h₂]⟩

/-- The contexts differ in a property that is not read, and the registries in a helper that is not
called. -/
theorem evaluation_is_local_sample :
    ∃ (c : Compiled) (context₁ context₂ : Context) (w₁ w₂ : World) (v : Value),
      Compiled.ofSource w₁.registry ⟨16, 4⟩ "$f(x) || y" = .ok c ∧
      context₁.get "z" ≠ context₂.get "z" ∧ context₁.root ≠ context₂.root ∧
      w₁.registry.contains "$g" = false ∧ w₂.registry.contains "$g" = true ∧
      (c.run context₁ w₁).1 = (c.run context₂ w₂).1 ∧
      c.root.run.exchanges context₁ w₁ = c.root.run.exchanges context₂ w₂ ∧
      c.root.run.exchanges context₁ w₁ =
        [.read "x", .call "$f" [v] (.ok v), .read "y"] := by
  let echo : Helper :=
    .mk none fun args => .note (.call "f" args) (.finish (.ok (args.headD .null)))
  let look : Helper := .mk none fun _ => .names fun _ => .finish (.ok .null)
  let context₁ : Context := .ofEntries []
  let context₂ : Context := .ofEntries [("z", .null)]
  let w₁ : World := ⟨⟨[("$f", echo)]⟩, []⟩
  let w₂ : World := ⟨⟨[("$f", echo), ("$g", look)]⟩, []⟩
  let c : Compiled :=
    ⟨"$f(x) || y", .logical .or (.helper "$f" [.contextRead "x"]) (.contextRead "y"), ["$f"]⟩
  let e : SourceExpr :=
    .logical ⟨⟨0, 10⟩, 3⟩ .or
      (.call ⟨⟨0, 5⟩, 2⟩ (.ident ⟨⟨0, 2⟩, 1⟩ "$f") [.ident ⟨⟨3, 4⟩, 1⟩ "x"])
      (.ident ⟨⟨9, 10⟩, 1⟩ "y")
  have hread : SourceExpr.ofSource ⟨16, 4⟩ "$f(x) || y".toList = .ok e := rfl
  have hall : ∀ name ∈ e.helperNames, w₁.registry.contains name = true := by
    intro name hname
    obtain rfl : name = "$f" := List.mem_singleton.1 hname
    rfl
  have hparts : Compiled.parts w₁.registry ⟨16, 4⟩ "$f(x) || y".toList = .ok (c.root, c.helpers) :=
    Compiled.parts_eq_ok_iff.2 ⟨e, hread, rfl, hall, rfl, rfl⟩
  have hc : Compiled.ofSource w₁.registry ⟨16, 4⟩ "$f(x) || y" = .ok c :=
    Compiled.ofSource_eq_ok_iff.2 ⟨hparts, rfl⟩
  have hget : ∀ name, .contextRead name ∈ c.root.nodes →
      context₁.get name = context₂.get name := by
    intro name hname
    simp only [c, Node.nodes, Node.nodesAll, List.cons_append, List.nil_append, List.mem_cons,
      Node.contextRead.injEq, reduceCtorEq, List.not_mem_nil, or_false, false_or] at hname
    rcases hname with rfl | rfl <;> rfl
  have hroot : .contextRoot ∈ c.root.nodes → context₁.root = context₂.root := by
    simp [c, Node.nodes, Node.nodesAll]
  have hfind : ∀ name ∈ c.helpers, w₁.registry.find? name = w₂.registry.find? name := by
    intro name hname
    obtain rfl := List.mem_singleton.1 hname
    rfl
  have hcontained : ∀ name ∈ c.helpers, ∀ h, w₁.registry.find? name = some h →
      h.IsSelfContained := by
    intro name hname h hh
    obtain rfl := List.mem_singleton.1 hname
    obtain rfl := Option.some.inj hh
    exact fun _ => trivial
  obtain ⟨hresult, hexchanges, -⟩ := evaluation_is_local hc hget hroot hfind hcontained
  have hz : context₁.get "z" ≠ context₂.get "z" := by
    simp [context₁, context₂, Context.ofEntries, NameMap.find?]
  have hwhole : context₁.root ≠ context₂.root := by simp [context₁, context₂, Context.ofEntries]
  exact ⟨c, context₁, context₂, w₁, w₂, .null, hc, hz, hwhole, rfl, rfl, hresult, hexchanges, rfl⟩

end SigilExpr
