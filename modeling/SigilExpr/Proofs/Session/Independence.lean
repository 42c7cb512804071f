import SigilExpr.Proofs.Session.Confinement

/-!
# Independent engines

A step on an engine reads the engine, its registry and a slot that it names, and it changes nothing
else. So of two engines with registries of their own, neither finds out what is done to the other, as
long as they use different slots.

Outcomes that list slots are compared in some of the slots. All slots of a session are listed there,
so the lists as a whole do tell.
-/

set_option autoImplicit false

namespace SigilExpr

/-- An outcome with no other slots listed than those that pass a test. -/
def Outcome.among (mine : String → Bool) : Outcome → Outcome
  | .compiled c slots => .compiled c (slots.filter mine)
  | .obtained c slots => .obtained c (slots.filter mine)
  | outcome => outcome

namespace Session

variable {s t : Session} {id : String} {e : HostedEngine} {slot? : Option String}
  {mine : String → Bool} {n : Nat}

/-- The sessions are the same for the steps on an engine that name no slots but some: the engine,
its registry, and these slots. -/
structure SameFor (id : String) (n : Nat) (mine : String → Bool) (s t : Session) : Prop where
  engine : s.engine? id = t.engine? id
  registry : s.registries[n]? = t.registries[n]?
  slots : NameMap.part mine s.slots = NameMap.part mine t.slots
  inOrder : NameMap.InOrder s.slots
  inOrder' : NameMap.InOrder t.slots

/-- The answers are the same in those slots, and so are the sessions after them. -/
structure SameAnswers (id : String) (n : Nat) (mine : String → Bool)
    (x y : Outcome × List Event × Session) : Prop where
  outcome : x.1.among mine = y.1.among mine
  events : x.2.1 = y.2.1
  session : x.2.2.SameFor id n mine y.2.2

namespace SameFor

theorem refl (id : String) (n : Nat) (mine : String → Bool) (h : NameMap.InOrder s.slots) :
    s.SameFor id n mine s := ⟨rfl, rfl, rfl, h, h⟩

variable (h : s.SameFor id n mine t)
include h

theorem registry_eq : s.registry n = t.registry n := by
  rw [Session.registry, Session.registry, h.registry]

theorem setRegistry (r : Registry) :
    (s.setRegistry n r).SameFor id n mine (t.setRegistry n r) := by
  refine ⟨h.engine, ?_, h.slots, h.inOrder, h.inOrder'⟩
  unfold Session.setRegistry
  rw [List.getElem?_set_self', List.getElem?_set_self', h.registry]

theorem setEngine (f : HostedEngine) :
    (s.setEngine id f).SameFor id n mine (t.setEngine id f) := by
  refine ⟨?_, h.registry, h.slots, h.inOrder, h.inOrder'⟩
  unfold engine? Session.setEngine
  rw [NameMap.find?_insert_self, NameMap.find?_insert_self]

theorem setSlot {slot : String} (hslot : mine slot = true) (shared : Shared) :
    (s.setSlot slot shared).SameFor id n mine (t.setSlot slot shared) := by
  refine ⟨h.engine, h.registry, ?_, h.inOrder.insert slot shared, h.inOrder'.insert slot shared⟩
  unfold Session.setSlot
  rw [NameMap.part_insert h.inOrder hslot, NameMap.part_insert h.inOrder' hslot, h.slots]

theorem settle (outcome : Registry → Outcome) (result : Except RegistryError Registry) :
    SameAnswers id n mine (s.settle n outcome result) (t.settle n outcome result) := by
  cases result with
  | ok r => exact ⟨rfl, rfl, h.setRegistry r⟩
  | error error => exact ⟨rfl, rfl, h⟩

theorem conclude (outcome : Outcome) (w : World) :
    SameAnswers id n mine (s.conclude n outcome w) (t.conclude n outcome w) :=
  ⟨rfl, rfl, h.setRegistry w.registry⟩

theorem slot_eq {slot : String} (hslot : mine slot = true) :
    NameMap.find? slot s.slots = NameMap.find? slot t.slots := by
  rw [← NameMap.find?_part hslot, h.slots, NameMap.find?_part hslot]

theorem slotsWith_eq (test : Shared → Bool) :
    (s.slotsWith test).filter mine = (t.slotsWith test).filter mine := by
  have hpart (u : Session) : (u.slotsWith test).filter mine =
      NameMap.names ((NameMap.part mine u.slots).filter fun slot => test slot.2) := by
    unfold slotsWith NameMap.names NameMap.part
    rw [List.filter_map, List.filter_filter, List.filter_filter]
    simp only [Function.comp_def, Bool.and_comm]
  rw [hpart, hpart, h.slots]

theorem keptCount?_eq : s.keptCount? id = t.keptCount? id :=
  congrArg (Option.map fun e : HostedEngine => e.engine.keptCount) h.engine

/-- What is confined to another engine, its registry and other slots does not matter. -/
theorem confined {f : HostedEngine} {u : Session} (hconfined : s.Confined f slot? u)
    (hengine : u.engine? id = s.engine? id) (hregistry : f.registry ≠ n)
    (hslot : ∀ slot ∈ slot?, mine slot = false) : u.SameFor id n mine t := by
  refine ⟨hengine.trans h.engine, (hconfined.registries n hregistry.symm).trans h.registry, ?_,
    hconfined.inOrder h.inOrder, h.inOrder'⟩
  rcases hconfined.slots with heq | ⟨slot, hmem, shared, heq⟩
  · rw [heq, h.slots]
  · rw [heq, NameMap.part_insert_of_eq_false (hslot slot hmem), h.slots]

end SameFor

/-- By cases of the step. What it reads of the sessions is what they have in common. -/
theorem stepOn_same [CallStack] (h : s.SameFor id e.registry mine t) (action : Step)
    (hslot : ∀ slot ∈ action.slot?, mine slot = true) :
    SameAnswers id e.registry mine (s.stepOn id e action) (t.stepOn id e action) := by
  have hreg := h.registry_eq
  cases action with
  | register name helper =>
    simp only [stepOn, hreg]
    exact h.settle _ _
  | add helper =>
    simp only [stepOn, hreg]
    exact h.settle _ _
  | «alias» name target =>
    simp only [stepOn, hreg]
    split
    · exact ⟨rfl, rfl, h⟩
    · exact h.settle _ _
  | inspect names =>
    simp only [stepOn, hreg]
    exact ⟨rfl, rfl, h⟩
  | invoke name args =>
    simp only [stepOn, hreg]
    split <;> exact h.conclude _ _
  | compile source slot =>
    simp only [stepOn, hreg]
    split
    · exact ⟨rfl, rfl, h⟩
    · next c _ =>
      refine ⟨?_, rfl, (h.setEngine _).setSlot (hslot slot rfl) _⟩
      exact congrArg (Outcome.compiled c) (h.slotsWith_eq _)
  | obtain source slot =>
    simp only [stepOn, hreg]
    split
    · exact ⟨rfl, rfl, h.setEngine _⟩
    · next shared _ _ =>
      refine ⟨?_, rfl, (h.setEngine _).setSlot (hslot slot rfl) _⟩
      exact congrArg (Outcome.obtained shared.compiled) (h.slotsWith_eq _)
  | runSlot slot context =>
    simp only [stepOn, hreg, h.slot_eq (hslot slot rfl)]
    split
    · exact ⟨rfl, rfl, h⟩
    · split <;> exact h.conclude _ _
  | runSource source context =>
    simp only [stepOn, hreg]
    split <;> exact (h.setEngine _).conclude _ _
  | forget => exact ⟨rfl, rfl, h.setEngine _⟩
  | wait => exact ⟨rfl, rfl, h⟩

/-- The slots that steps name. -/
def slotsOf (steps : List Step) : List String := steps.filterMap Step.slot?

theorem forall_slotsOf_cons {p : String → Prop} {x : Step} {xs : List Step} :
    (∀ slot ∈ slotsOf (x :: xs), p slot) ↔
      (∀ slot ∈ x.slot?, p slot) ∧ ∀ slot ∈ slotsOf xs, p slot := by
  unfold slotsOf
  cases hx : x.slot? with
  | none => simp [hx]
  | some slot => simp [hx]

/-- The history is made of steps on one engine and steps on another, both in order. -/
inductive Interleaves (a b : String) : List Step → List Step → List Command → Prop where
  | nil : Interleaves a b [] [] []
  | left {xs ys : List Step} {zs : List Command} (x : Step) :
      Interleaves a b xs ys zs → Interleaves a b (x :: xs) ys (.act a x :: zs)
  | right {xs ys : List Step} {zs : List Command} (y : Step) :
      Interleaves a b xs ys zs → Interleaves a b xs (y :: ys) (.act b y :: zs)

/-- The answers to the steps on an engine in a history: the outcome with some of the slots in it,
the events, and how many expressions the engine keeps then. -/
def answersOf [CallStack] (id : String) (mine : String → Bool) (s : Session) :
    List Command → List (Outcome × List Event × Option Nat)
  | [] => []
  | .create id' source options :: cs =>
    answersOf id mine (s.perform (.create id' source options)).2.2 cs
  | .act id' action :: cs =>
    let (outcome, events, t) := s.perform (.act id' action)
    if id' = id then (outcome.among mine, events, t.keptCount? id) :: answersOf id mine t cs
    else answersOf id mine t cs

/-- By induction on the interleaving. Steps on the first engine give the same answers in both
sessions; steps on the second one are done in the one session only, and they are confined. -/
theorem answersOf_interleaves [CallStack] {a b : String} {m : Nat} {xs ys : List Step}
    {zs : List Command} (hzs : Interleaves a b xs ys zs) (hab : a ≠ b) (hmn : m ≠ n)
    (hxs : ∀ slot ∈ slotsOf xs, mine slot = true) (hys : ∀ slot ∈ slotsOf ys, mine slot = false)
    (h : s.SameFor a n mine t) (ha : s.Hosts a n) (hb : s.Hosts b m) :
    answersOf a mine s zs = answersOf a mine t (xs.map (.act a)) := by
  induction hzs generalizing s t with
  | nil => rfl
  | @left xs ys zs x _ ih =>
    obtain ⟨e, he, rfl⟩ := ha
    have he' : t.engine? a = some e := h.engine ▸ he
    obtain ⟨hslot, hrest⟩ := forall_slotsOf_cons.1 hxs
    have hsame := stepOn_same h x hslot
    have hlater := ih hrest hys hsame.session (Hosts.stepOn ⟨e, he, rfl⟩ he x) (hb.stepOn he x)
    rw [List.map_cons, answersOf, answersOf, perform_act he, perform_act he']
    dsimp only
    rw [if_pos rfl, if_pos rfl, hsame.outcome, hsame.events, hsame.session.keptCount?_eq, hlater]
  | @right xs ys zs y _ ih =>
    obtain ⟨f, hf, rfl⟩ := hb
    obtain ⟨hslot, hrest⟩ := forall_slotsOf_cons.1 hys
    have hengine : (s.stepOn b f y).2.2.engine? a = s.engine? a := by
      obtain ⟨engine, -, hengines⟩ := (stepOn_follows hf y).engines
      rw [hengines, if_neg hab]
    have hsame := h.confined (stepOn_confined s b f y) hengine hmn hslot
    have hlater := ih hxs hrest hsame (ha.stepOn hf y) (Hosts.stepOn ⟨f, hf, rfl⟩ hf y)
    rw [answersOf, perform_act hf]
    dsimp only
    rw [if_neg hab.symm, hlater]

/-- Two engines with registries of their own do not interfere. However steps on the one and steps on
the other come in turn, on different slots, the answers to the steps on the one are those that it
gives alone, apart from the slots of the other. An engine with a copy of a registry is such a one. -/
theorem engines_do_not_interfere [CallStack] (before : List Command) :
    let s := ({} : Session).after before
    (∀ (a b : String) (e f : HostedEngine) (xs ys : List Step) (history : List Command),
      s.engine? a = some e → s.engine? b = some f → e.registry ≠ f.registry →
      (slotsOf xs).Disjoint (slotsOf ys) → Interleaves a b xs ys history →
      answersOf a (fun slot => slot ∉ slotsOf ys) s history =
        answersOf a (fun slot => slot ∉ slotsOf ys) s (xs.map (.act a))) ∧
    ∀ (a b : String) (e : HostedEngine) (options : Option Value) (o : Engine.Options),
      a ≠ b → s.engine? a = some e → decodeOptions options = some o →
      let t := (s.create b (.copyOf a) options).2
      ∃ f, t.engine? a = some e ∧ t.engine? b = some f ∧ f.registry ≠ e.registry ∧
        t.registry f.registry = s.registry e.registry := by
  intro s
  have hs : s.Orderly := orderly_after before
  constructor
  · intro a b e f xs ys history he hf hregistry hdisjoint hhistory
    have hab : a ≠ b := by
      rintro rfl
      exact hregistry (congrArg HostedEngine.registry (Option.some.inj (he.symm.trans hf)))
    have hxs : ∀ slot ∈ slotsOf xs, decide (slot ∉ slotsOf ys) = true :=
      fun slot hx => decide_eq_true fun hy => hdisjoint hx hy
    have hys : ∀ slot ∈ slotsOf ys, decide (slot ∉ slotsOf ys) = false :=
      fun slot hy => decide_eq_false fun hnot => hnot hy
    exact answersOf_interleaves hhistory hab hregistry.symm hxs hys
      (.refl a e.registry _ hs.slots) ⟨e, he, rfl⟩ ⟨f, hf, rfl⟩
  · intro a b e options o hab he ho
    exact hs.copy hab he ho

/-- A helper is replaced in a copy of the registry that another engine compiles against. -/
theorem engines_do_not_interfere_sample :
    ∃ (before history : List Command) (e f : HostedEngine) (xs ys : List Step),
      let s := ({} : Session).after before
      s.engine? "a" = some e ∧ s.engine? "b" = some f ∧ e.registry ≠ f.registry ∧
      (s.registry f.registry).names = (s.registry e.registry).names ∧
      Interleaves "a" "b" xs ys history ∧ slotsOf xs = ["s", "s"] ∧ slotsOf ys = ["t"] ∧
      answersOf "a" (fun slot => slot ∉ slotsOf ys) s history =
        answersOf "a" (fun slot => slot ∉ slotsOf ys) s (xs.map (.act "a")) := by
  let helper : Helper := .mk none fun _ => .finish (.ok .null)
  let other : Helper := .mk none fun _ => .finish (.ok (.bool true))
  let before : List Command :=
    [.create "a" .empty none, .act "a" (.register "$f" helper), .create "b" (.copyOf "a") none]
  let xs : List Step := [.obtain "$f" "s", .runSlot "s" (.ofValue .null)]
  let ys : List Step := [.register "$f" other, .compile "$f" "t"]
  let history : List Command :=
    [.act "a" (.obtain "$f" "s"), .act "b" (.register "$f" other), .act "b" (.compile "$f" "t"),
      .act "a" (.runSlot "s" (.ofValue .null))]
  have he : (({} : Session).after before).engine? "a" = some ⟨0, {}⟩ := rfl
  have hf : (({} : Session).after before).engine? "b" = some ⟨1, { number := 1 }⟩ := rfl
  have hhistory : Interleaves "a" "b" xs ys history := .left _ (.right _ (.right _ (.left _ .nil)))
  have hdisjoint : (slotsOf xs).Disjoint (slotsOf ys) := by simp [slotsOf, xs, ys, Step.slot?]
  obtain ⟨alone, -⟩ := engines_do_not_interfere before
  exact ⟨before, history, ⟨0, {}⟩, ⟨1, { number := 1 }⟩, xs, ys, he, hf, by decide, rfl, hhistory,
    rfl, rfl, alone "a" "b" _ _ xs ys history he hf (by decide) hdisjoint hhistory⟩

end Session

end SigilExpr
