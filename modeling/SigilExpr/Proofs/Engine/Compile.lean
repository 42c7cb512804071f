import SigilExpr.Compiled
import SigilExpr.Proofs.Eval.Calls

/-!
# What compiling settles

Compiling asks a registry for nothing but which names it holds. So what compiles against a registry
compiles to the same against any larger one, and it runs there without missing a helper.
-/

set_option autoImplicit false

namespace SigilExpr

theorem SourceExpr.helpersIn_eq_ok_iff {e : SourceExpr} {isRegistered : String → Bool}
    {names : List String} :
    e.helpersIn isRegistered = .ok names ↔
      (∀ name ∈ e.helperNames, isRegistered name = true) ∧
        names = Text.nameSet e.helperNames := by
  constructor
  · intro h
    have hall : ∀ name ∈ e.helperNames, isRegistered name = true := by
      by_contra hmissing
      obtain ⟨name, hname, hnot⟩ := not_forall₂.1 hmissing
      obtain ⟨m, hfind⟩ : ∃ m, e.helperNames.find? (fun name => !isRegistered name) = some m :=
        Option.isSome_iff_exists.1 (List.find?_isSome.2 ⟨name, hname, by simpa using hnot⟩)
      obtain ⟨offset, herror⟩ := SourceExpr.helpersIn_eq_error hfind
      rw [herror] at h
      cases h
    rw [SourceExpr.helpersIn_eq_ok hall] at h
    exact ⟨hall, (Except.ok.inj h).symm⟩
  · rintro ⟨hall, rfl⟩
    exact SourceExpr.helpersIn_eq_ok hall

namespace Compiled

variable {registry r s : Registry} {limits : Limits} {source : String} {c : Compiled}

/-- A source compiles if it can be read, if nothing in it is refused, if its helpers are registered
and if its tree can be made. -/
theorem parts_eq_ok_iff {cs : List Char} {root : Node} {helpers : List String} :
    parts registry limits cs = .ok (root, helpers) ↔
      ∃ e, SourceExpr.ofSource limits cs = .ok e ∧ e.checkAllowed = .ok () ∧
        (∀ name ∈ e.helperNames, registry.contains name = true) ∧
        e.toNode = .ok root ∧ helpers = Text.nameSet e.helperNames := by
  simp only [parts, bind_eq_ok_iff, SourceExpr.helpersIn_eq_ok_iff]
  constructor
  · rintro ⟨e, he, ⟨⟩, hallowed, names, ⟨hall, rfl⟩, node, hnode, h⟩
    cases h
    exact ⟨e, he, hallowed, hall, hnode, rfl⟩
  · rintro ⟨e, he, hallowed, hall, hnode, rfl⟩
    exact ⟨e, he, (), hallowed, _, ⟨hall, rfl⟩, root, hnode, rfl⟩

theorem ofSource_eq_ok_iff :
    ofSource registry limits source = .ok c ↔
      parts registry limits source.toList = .ok (c.root, c.helpers) ∧ c.source = source := by
  unfold ofSource
  constructor
  · intro h
    split at h
    · next hparts =>
      obtain rfl := Except.ok.inj h
      exact ⟨hparts, rfl⟩
    · cases h
  · rintro ⟨hparts, rfl⟩
    rw [hparts]

theorem parts_grows {cs : List Char} {p : Node × List String} (hrs : r.GrowsTo s)
    (h : parts r limits cs = .ok p) : parts s limits cs = .ok p := by
  obtain ⟨e, he, hallowed, hall, hrest⟩ := parts_eq_ok_iff.1 h
  exact parts_eq_ok_iff.2 ⟨e, he, hallowed, fun name hname => hrs (hall name hname), hrest⟩

/-- What compiles against a registry compiles to the same when the registry has grown. -/
theorem ofSource_grows (hrs : r.GrowsTo s) (h : ofSource r limits source = .ok c) :
    ofSource s limits source = .ok c := by
  obtain ⟨hparts, hsource⟩ := ofSource_eq_ok_iff.1 h
  exact ofSource_eq_ok_iff.2 ⟨parts_grows hrs hparts, hsource⟩

/-- The set of helpers of a compiled expression is that of its tree, and all were registered. -/
theorem helpers_of_ofSource (h : ofSource registry limits source = .ok c) :
    (∀ name, name ∈ c.helpers ↔ name ∈ c.root.helperNames) ∧
      ∀ name ∈ c.helpers, registry.contains name = true := by
  obtain ⟨e, -, -, hall, hnode, hhelpers⟩ := parts_eq_ok_iff.1 (ofSource_eq_ok_iff.1 h).1
  have hnames : c.root.helperNames = e.helperNames := SourceExpr.helperNames_of_toNode e hnode
  rw [hhelpers]
  constructor
  · intro name
    rw [hnames, Text.mem_nameSet]
  · intro name hname
    exact hall name ((Text.mem_nameSet name _).1 hname)

/-- The error of a run is not that a helper is missing. -/
def NeverMissing (result : Except EvaluationError Value) : Prop :=
  ∀ error, result = .error error → ∀ name, error.cause ≠ .missingHelper name

theorem run_neverMissing (h : ofSource registry limits source = .ok c) (context : Context)
    (w : World) (hw : ∀ name ∈ c.helpers, w.registry.contains name = true) :
    NeverMissing (c.run context w).1 := by
  obtain ⟨hhelpers, -⟩ := helpers_of_ofSource h
  have hcalls : c.root.run.CallsWithin (· ∈ c.helpers) :=
    Node.run_callsWithin c.root fun name hname => (hhelpers name).2 hname
  have hperform := hcalls.perform_ne_missing context hw
  intro error herror name hname
  rw [run] at herror
  split at herror
  · cases herror
  · next cause w' heq =>
    cases herror
    exact hperform name (by rw [heq, ← hname])

/-- A compiled expression still runs when the registry that it was compiled against has grown. -/
theorem run_neverMissing_of_grows (h : ofSource registry limits source = .ok c)
    (context : Context) (w : World) (hw : registry.GrowsTo w.registry) :
    NeverMissing (c.run context w).1 := by
  obtain ⟨-, hregistered⟩ := helpers_of_ofSource h
  exact run_neverMissing h context w fun name hname => hw (hregistered name hname)

end Compiled

end SigilExpr
