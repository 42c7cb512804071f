import SigilExpr.Engine.Basic
import SigilExpr.Proofs.Engine.Compile

/-!
# What an engine keeps

An engine is fresh for a registry if all that it keeps is what it would compile now. Then obtaining a
source and compiling it come to the same, kept or not. Freshness lasts while the registry grows,
which is where the names of helpers matter and the helpers themselves do NOT.
-/

set_option autoImplicit false

namespace SigilExpr.Engine

variable {e e' : Engine} {r s : Registry} {source : String}

theorem compile_eq_of_limits (h : e'.options.limits = e.options.limits) (r : Registry)
    (source : String) : e'.compile r source = e.compile r source := by
  unfold compile
  rw [h]

/-- All that an engine keeps is what it compiles against a registry. -/
def Fresh (e : Engine) (r : Registry) : Prop :=
  ∀ ⦃source shared⦄, NameMap.find? source e.kept = some shared →
    e.compile r source = .ok shared.compiled

namespace Fresh

theorem of_kept_eq_nil (h : e.kept = []) : e.Fresh r := by
  intro source shared hfind
  rw [h] at hfind
  cases hfind

theorem grows (h : e.Fresh r) (hrs : r.GrowsTo s) : e.Fresh s :=
  fun _ _ hfind => Compiled.ofSource_grows hrs (h hfind)

theorem insert (h : e.Fresh r) (shared : Shared)
    (hshared : e.compile r source = .ok shared.compiled) :
    Fresh { e with kept := NameMap.insert source shared e.kept } r := by
  intro source' shared' hfind
  by_cases hs : source' = source
  · subst hs
    rw [NameMap.find?_insert_self] at hfind
    obtain rfl := Option.some.inj hfind
    exact hshared
  · rw [NameMap.find?_insert_of_ne hs] at hfind
    exact h hfind

end Fresh

/-- An engine after some of its steps: still the same engine with the same options, and fresh if it
was fresh before. -/
structure Continues (r : Registry) (e e' : Engine) : Prop where
  number : e'.number = e.number
  options : e'.options = e.options
  fresh : e.Fresh r → e'.Fresh r

namespace Continues

theorem refl (r : Registry) (e : Engine) : Continues r e e := ⟨rfl, rfl, id⟩

theorem make (r : Registry) (e : Engine) (c : Compiled) : Continues r e (e.make c).2 :=
  ⟨rfl, rfl, fun h => h⟩

theorem forget (r : Registry) (e : Engine) : Continues r e e.forget :=
  ⟨rfl, rfl, fun _ => .of_kept_eq_nil rfl⟩

end Continues

theorem obtain_continues (e : Engine) (r : Registry) (source : String) :
    Continues r e (e.obtain r source).2 := by
  unfold obtain
  split
  · split
    · exact .refl r e
    · split
      · exact .refl r e
      · next c hc => exact ⟨rfl, rfl, fun h => h.insert (e.make c).1 hc⟩
  · split
    · exact .refl r e
    · next c _ => exact .make r e c

/-- Obtaining a source gives what compiling it gives, whether it is kept or not. -/
theorem obtain_eq_compile (h : e.Fresh r) (source : String) :
    (e.obtain r source).1.map Shared.compiled = e.compile r source := by
  unfold obtain
  split
  · split
    · next shared hfind => exact (h hfind).symm
    · split
      · next hc => exact hc.symm
      · next hc => exact hc.symm
  · split
    · next hc => exact hc.symm
    · next hc => exact hc.symm

/-- What is kept after a source was obtained: no more than before if that failed or the options say
so, else the object that it gave as well. -/
theorem find?_obtain (e : Engine) (r : Registry) (source source' : String) (shared : Shared) :
    NameMap.find? source' (e.obtain r source).2.kept = some shared ↔
      (e.options.keepsCompiled = true ∧ source' = source ∧ (e.obtain r source).1 = .ok shared) ∨
        NameMap.find? source' e.kept = some shared := by
  unfold obtain
  split
  · next hkeeps =>
    split
    · next shared' hfind =>
      constructor
      · exact .inr
      · rintro (⟨-, rfl, hok⟩ | hfind')
        · exact Except.ok.inj hok ▸ hfind
        · exact hfind'
    · next hfind =>
      split
      · simp
      · next c _ =>
        by_cases hs : source' = source
        · subst hs
          simp [hkeeps, hfind]
        · simp [NameMap.find?_insert_of_ne hs, hs, make]
  · next hkeeps => split <;> simp [hkeeps, make]

/-- To obtain a source leaves the engine as it is or makes one more object, which is kept if the
options say so. -/
theorem obtain_cases (e : Engine) (r : Registry) (source : String) :
    (e.obtain r source).2 = e ∨ ∃ c, (e.obtain r source).1 = .ok (e.make c).1 ∧
      ((e.options.keepsCompiled = true ∧ (e.obtain r source).2 =
          { (e.make c).2 with kept := NameMap.insert source (e.make c).1 e.kept }) ∨
        (e.obtain r source).2 = (e.make c).2) := by
  unfold obtain
  split
  · next hkeeps =>
    split
    · exact .inl rfl
    · split
      · exact .inl rfl
      · next c _ => exact .inr ⟨c, rfl, .inl ⟨hkeeps, rfl⟩⟩
  · split
    · exact .inl rfl
    · next c _ => exact .inr ⟨c, rfl, .inr rfl⟩

/-- A run of a source leaves the engine that obtaining the source leaves. -/
theorem runSource_engine (e : Engine) (source : String) (context : Context) (w : World) :
    (e.runSource source context w).2.2 = (e.obtain w.registry source).2 := by
  unfold runSource
  rcases e.obtain w.registry source with ⟨error | shared, e'⟩
  · rfl
  · dsimp only
    rcases shared.compiled.run context w with ⟨error | v, w'⟩ <;> rfl

/-- Compiles a source and runs it, whatever is kept. -/
def runAfresh (e : Engine) (source : String) (context : Context) (w : World) :
    Except SourceError Value × World :=
  match e.compile w.registry source with
  | .error error => (.error (.compile error), w)
  | .ok c =>
    match c.run context w with
    | (.error error, w) => (.error (.evaluation error), w)
    | (.ok v, w) => (.ok v, w)

theorem runSource_eq_runAfresh {w : World} (h : e.Fresh w.registry) (source : String)
    (context : Context) :
    e.runSource source context w =
      ((e.runAfresh source context w).1, (e.runAfresh source context w).2,
        (e.obtain w.registry source).2) := by
  have hobtain := obtain_eq_compile h source
  unfold runSource runAfresh
  rw [← hobtain]
  rcases e.obtain w.registry source with ⟨error | shared, e'⟩
  · rfl
  · dsimp only [Except.map]
    rcases shared.compiled.run context w with ⟨error | v, w'⟩ <;> rfl

end SigilExpr.Engine
