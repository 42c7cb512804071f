import SigilExpr.Compiled
import SigilExpr.Engine.Options

/-!
# Engines

An engine compiles and runs expressions under its options. It may keep what it compiled: a source
that was kept gives the same object again until everything is forgotten, whatever has been
registered since. A source that does not compile is not kept.
-/

set_option autoImplicit false

namespace SigilExpr

/-- A compiled expression as an object of its own, told apart from others by the number of the
engine that made it and by how many that engine had made before. -/
structure Shared where
  maker : Nat
  index : Nat
  compiled : Compiled
deriving Inhabited

def Shared.isSameObject (a b : Shared) : Bool := a.maker == b.maker && a.index == b.index

/-- An engine: its number, its options, the compiled expressions that it keeps by source, and how
many it has made. -/
structure Engine where
  number : Nat := 0
  options : Engine.Options := {}
  kept : List (String × Shared) := []
  made : Nat := 0

inductive SourceError where
  | compile (error : CompileError)
  | evaluation (error : EvaluationError)

namespace Engine

def compile (e : Engine) (registry : Registry) (source : String) : Except CompileError Compiled :=
  Compiled.ofSource registry e.options.limits source

def make (e : Engine) (c : Compiled) : Shared × Engine :=
  (⟨e.number, e.made, c⟩, { e with made := e.made + 1 })

/-- The object kept for a source, or else a new one, which is kept if the options say so. -/
def obtain (e : Engine) (registry : Registry) (source : String) :
    Except CompileError Shared × Engine :=
  if e.options.keepsCompiled then
    match NameMap.find? source e.kept with
    | some shared => (.ok shared, e)
    | none =>
      match e.compile registry source with
      | .error error => (.error error, e)
      | .ok c =>
        let (shared, e) := e.make c
        (.ok shared, { e with kept := NameMap.insert source shared e.kept })
  else
    match e.compile registry source with
    | .error error => (.error error, e)
    | .ok c =>
      let (shared, e) := e.make c
      (.ok shared, e)

def runSource (e : Engine) (source : String) (context : Context) (w : World) :
    Except SourceError Value × World × Engine :=
  match e.obtain w.registry source with
  | (.error error, e) => (.error (.compile error), w, e)
  | (.ok shared, e) =>
    match shared.compiled.run context w with
    | (.error error, w) => (.error (.evaluation error), w, e)
    | (.ok v, w) => (.ok v, w, e)

def forget (e : Engine) : Engine := { e with kept := [] }

def keptCount (e : Engine) : Nat := e.kept.length

end Engine

end SigilExpr
