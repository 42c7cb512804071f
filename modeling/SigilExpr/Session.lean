import SigilExpr.Engine.Basic

/-!
# Sessions

A session is a history of steps on named engines. Engines may share a registry or have copies of
one, and compiled expressions are put into named slots that all engines use. Every step has an
outcome, and the session goes on after a step that fails.
-/

set_option autoImplicit false

namespace SigilExpr

inductive RegistrySource where
  | standard
  | empty
  | copyOf (engine : String)
  | sharedWith (engine : String)

inductive Step where
  | register (name : String) (helper : Helper)
  | add (helper : Helper)
  | alias (name target : String)
  | inspect (names : List String)
  | invoke (name : String) (args : List Value)
  | compile (source slot : String)
  | obtain (source slot : String)
  | runSlot (slot : String) (context : Context)
  | runSource (source : String) (context : Context)
  | forget
  | wait

inductive Outcome where
  | created (options : Engine.Options) (names : List String)
  | registered (names : List String)
  | aliased (declaredName : Option String) (names : List String)
  | notFound
  | inspected (registry : Registry) (contains : List Bool)
  | value (v : Value)
  | compiled (c : Compiled) (equalSlots : List String)
  | obtained (c : Compiled) (sameSlots : List String)
  | finished
  | badOptions
  | registryError (error : RegistryError)
  | helperError (error : HelperError)
  | compileError (error : CompileError)
  | evaluationError (error : EvaluationError)
  | noSlot
  | noEngine

structure HostedEngine where
  registry : Nat
  engine : Engine

/-- What a session has come to: its registries by number, its engines and slots by name, and how
many engines it has had. -/
structure Session where
  registries : List Registry := []
  engines : List (String × HostedEngine) := []
  slots : List (String × Shared) := []
  engineCount : Nat := 0

namespace Session

def registry (s : Session) (number : Nat) : Registry := (s.registries[number]?).getD .empty

def setRegistry (s : Session) (number : Nat) (r : Registry) : Session :=
  { s with registries := s.registries.set number r }

def setEngine (s : Session) (id : String) (e : HostedEngine) : Session :=
  { s with engines := NameMap.insert id e s.engines }

def setSlot (s : Session) (slot : String) (shared : Shared) : Session :=
  { s with slots := NameMap.insert slot shared s.slots }

def slotsWith (s : Session) (test : Shared → Bool) : List String :=
  NameMap.names (s.slots.filter fun slot => test slot.2)

/-- The number of a new engine's registry, and the registries with that one among them. -/
def provide (s : Session) : RegistrySource → Option (Nat × List Registry)
  | .standard => some (s.registries.length, s.registries ++ [.standard])
  | .empty => some (s.registries.length, s.registries ++ [.empty])
  | .copyOf id => do
    let e ← NameMap.find? id s.engines
    return (s.registries.length, s.registries ++ [s.registry e.registry])
  | .sharedWith id => do
    let e ← NameMap.find? id s.engines
    return (e.registry, s.registries)

def decodeOptions : Option Value → Option Engine.Options
  | none => some {}
  | some v => Engine.Options.ofValue? v

/-- Creates an engine, in the place of any that had the name. -/
def create (s : Session) (id : String) (source : RegistrySource) (options : Option Value) :
    Outcome × Session :=
  match decodeOptions options with
  | none => (.badOptions, s)
  | some options =>
    match s.provide source with
    | none => (.noEngine, s)
    | some (registry, registries) =>
      let engine : Engine := { number := s.engineCount, options }
      let s := { s with registries, engineCount := s.engineCount + 1 }.setEngine id
        ⟨registry, engine⟩
      (.created options (s.registry registry).names, s)

def settle (s : Session) (number : Nat) (outcome : Registry → Outcome) :
    Except RegistryError Registry → Outcome × List Event × Session
  | .ok r => (outcome r, [], s.setRegistry number r)
  | .error error => (.registryError error, [], s)

def conclude (s : Session) (number : Nat) (outcome : Outcome) (w : World) :
    Outcome × List Event × Session :=
  (outcome, w.log, s.setRegistry number w.registry)

variable [CallStack]

/-- Does a step on an engine: its outcome, the events that it left in the log, and the session. -/
def stepOn (s : Session) (id : String) (e : HostedEngine) : Step →
    Outcome × List Event × Session
  | .register name helper =>
    s.settle e.registry (fun r => .registered r.names)
      ((s.registry e.registry).register name helper)
  | .add helper =>
    s.settle e.registry (fun r => .registered r.names) ((s.registry e.registry).add helper)
  | .alias name target =>
    match (s.registry e.registry).find? name with
    | none => (.notFound, [], s)
    | some helper =>
      s.settle e.registry (fun r => .aliased helper.declaredName r.names)
        ((s.registry e.registry).register target helper)
  | .inspect names =>
    let r := s.registry e.registry
    (.inspected r (names.map r.contains), [], s)
  | .invoke name args =>
    match World.invoke name args ⟨s.registry e.registry, []⟩ with
    | (.ok v, w) => s.conclude e.registry (.value v) w
    | (.error error, w) => s.conclude e.registry (.helperError error) w
  | .compile source slot =>
    match e.engine.compile (s.registry e.registry) source with
    | .error error => (.compileError error, [], s)
    | .ok c =>
      let (shared, engine) := e.engine.make c
      let equalSlots := s.slotsWith fun other => other.compiled.same c
      (.compiled c equalSlots, [], (s.setEngine id { e with engine }).setSlot slot shared)
  | .obtain source slot =>
    match e.engine.obtain (s.registry e.registry) source with
    | (.error error, engine) => (.compileError error, [], s.setEngine id { e with engine })
    | (.ok shared, engine) =>
      let sameSlots := s.slotsWith shared.isSameObject
      (.obtained shared.compiled sameSlots, [],
        (s.setEngine id { e with engine }).setSlot slot shared)
  | .runSlot slot context =>
    match NameMap.find? slot s.slots with
    | none => (.noSlot, [], s)
    | some shared =>
      match shared.compiled.run context ⟨s.registry e.registry, []⟩ with
      | (.ok v, w) => s.conclude e.registry (.value v) w
      | (.error error, w) => s.conclude e.registry (.evaluationError error) w
  | .runSource source context =>
    match e.engine.runSource source context ⟨s.registry e.registry, []⟩ with
    | (.ok v, w, engine) => (s.setEngine id { e with engine }).conclude e.registry (.value v) w
    | (.error (.compile error), w, engine) =>
      (s.setEngine id { e with engine }).conclude e.registry (.compileError error) w
    | (.error (.evaluation error), w, engine) =>
      (s.setEngine id { e with engine }).conclude e.registry (.evaluationError error) w
  | .forget => (.finished, [], s.setEngine id { e with engine := e.engine.forget })
  | .wait => (.finished, [], s)

def step (s : Session) (id : String) (action : Step) : Outcome × List Event × Session :=
  match NameMap.find? id s.engines with
  | none => (.noEngine, [], s)
  | some e => s.stepOn id e action

def keptCount? (s : Session) (id : String) : Option Nat :=
  (NameMap.find? id s.engines).map fun e => e.engine.keptCount

end Session

end SigilExpr
