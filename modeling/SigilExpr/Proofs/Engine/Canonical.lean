import SigilExpr.Proofs.Engine.Compile
import SigilExpr.Proofs.Helper.Kept
import SigilExpr.Proofs.Value.Canonical

/-!
# Canonical results

The constants of a compiled tree are canonical, since a literal becomes a number as an arithmetic
result does. So an expression that is given nothing but canonical values comes to one.
-/

set_option autoImplicit false

namespace SigilExpr

theorem Node.ofName_ne_const (name : String) (v : Value) : Node.ofName name ≠ .const v := by
  unfold Node.ofName
  split <;> simp

theorem SourceExpr.Lowers.canonical_of_eq_const {e : SourceExpr} {n : Node} {v : Value}
    (h : Lowers e n) (hn : n = .const v) : v.Canonical := by
  cases h with
  | number hx =>
    obtain rfl := Node.const.inj hn
    exact Value.canonical_number_iff.2 (Number.canonical_of_ofBinary64? hx)
  | string s =>
    obtain rfl := Node.const.inj hn
    exact Value.canonical_string s
  | bool b =>
    obtain rfl := Node.const.inj hn
    exact Value.canonical_bool b
  | null =>
    obtain rfl := Node.const.inj hn
    exact Value.canonical_null
  | ident name => exact absurd hn (Node.ofName_ne_const name v)
  | _ => cases hn

namespace Compiled

variable {registry : Registry} {limits : Limits} {source : String} {c : Compiled}

theorem canonical_of_const_mem (h : ofSource registry limits source = .ok c) {v : Value}
    (hv : .const v ∈ c.root.nodes) : v.Canonical := by
  obtain ⟨e, -, -, -, hnode, -⟩ := parts_eq_ok_iff.1 (ofSource_eq_ok_iff.1 h).1
  obtain ⟨d, -, hd⟩ := (SourceExpr.lowers_of_toNode e hnode).exists_of_mem_nodes hv
  exact hd.canonical_of_eq_const rfl

theorem canonical_run (h : ofSource registry limits source = .ok c) {context : Context}
    (hcontext : context.Holds Value.Canonical) {w : World}
    (hw : w.registry.Keeps Value.Canonical) :
    Yields Value.Canonical (c.run context w).1 := by
  have hkeeps : c.root.run.Keeps Value.Canonical Value.Canonical :=
    Node.run_keeps Value.canonical_kept c.root fun _ hv => canonical_of_const_mem h hv
  have hperform := hkeeps.perform hcontext w hw
  unfold run
  split
  · next heq =>
    rw [heq] at hperform
    exact .ok (hperform rfl)
  · exact .error _

end Compiled

theorem Context.holds_canonical_ofValue {v : Value} (h : v.Canonical) :
    (Context.ofValue v).Holds Value.Canonical where
  root := h
  get name a ha := by
    cases v with
    | object fields => exact Value.canonical_object_iff.1 h _ (NameMap.mem_of_find? ha)
    | _ => cases ha

namespace Registry

theorem canonical_dateHelper (p : Date.Period) : (dateHelper p).Keeps Value.Canonical := by
  intro args _
  change Yields Value.Canonical (p.call args)
  unfold Date.Period.call
  split
  · refine (Yields.any _).bind ?_
    intro x _
    split
    · next hn => exact .ok (Value.canonical_number_iff.2 (Number.canonical_of_ofBinary64? hn))
    · exact .error _
  · exact .error _

theorem canonical_standard : standard.HelpersKeep Value.Canonical := by
  intro name h hfind
  have hmem := NameMap.mem_of_mem_ofList (NameMap.mem_of_find? hfind)
  obtain ⟨p, -, hp⟩ := List.mem_map.1 hmem
  cases hp
  exact canonical_dateHelper p

end Registry

/-- Given canonical values only, an expression that compiles comes to a canonical value. Values and
entries that are canonical are such a context, and helpers that keep canonical values, as those for
dates do, make such a registry. -/
theorem results_are_canonical :
    (∀ (registry : Registry) (limits : Limits) (source : String) (c : Compiled),
      Compiled.ofSource registry limits source = .ok c →
      ∀ (context : Context) (w : World), context.Holds Value.Canonical →
        w.registry.Keeps Value.Canonical →
        ∀ v, (c.run context w).1 = .ok v → v.Canonical) ∧
    (∀ v : Value, v.Canonical → (Context.ofValue v).Holds Value.Canonical) ∧
    (∀ entries : List (String × Value), (∀ e ∈ entries, e.2.Canonical) →
      (Context.ofEntries entries).Holds Value.Canonical) ∧
    (∀ r : Registry, r.HelpersKeep Value.Canonical → r.Keeps Value.Canonical) ∧
    (∀ p : Date.Period, (Registry.dateHelper p).Keeps Value.Canonical) ∧
    Registry.standard.Keeps Value.Canonical := by
  refine ⟨?_, fun _ => Context.holds_canonical_ofValue, ?_, fun _ => Registry.HelpersKeep.keeps,
    Registry.canonical_dateHelper, Registry.canonical_standard.keeps⟩
  · intro registry limits source c hc context w hcontext hw v hv
    exact Compiled.canonical_run hc hcontext hw hv
  · intro entries hentries
    exact Context.holds_canonical_ofValue (Value.canonical_object_iff.2 hentries)

/-- Twice the double 2.5 is the integer 5, and the double 5 would not be canonical. -/
theorem results_are_canonical_sample :
    ∃ (c : Compiled) (context : Context) (w : World),
      Compiled.ofSource .standard ⟨16, 2⟩ "x+x" = .ok c ∧
      context.get "x" = some (.number (.float (.ofBits 0x4004000000000000))) ∧
      (c.run context w).1 = .ok (.int 5) ∧ (Value.int 5).Canonical ∧
      ¬ Value.Canonical (.number (.float (.ofNat 5))) := by
  let x : Value := .number (.float (.ofBits 0x4004000000000000))
  let context : Context := .ofEntries [("x", x)]
  let w : World := ⟨.standard, []⟩
  let c : Compiled := ⟨"x+x", .binary .add (.contextRead "x") (.contextRead "x"), []⟩
  have hc : Compiled.ofSource .standard ⟨16, 2⟩ "x+x" = .ok c := rfl
  have hx : ∀ e ∈ [("x", x)], e.2.Canonical := by decide
  have hrun : (c.run context w).1 = .ok (.int 5) := rfl
  obtain ⟨canonical, -, ofEntries, -, -, standard⟩ := results_are_canonical
  exact ⟨c, context, w, hc, rfl, hrun,
    canonical _ _ _ c hc context w (ofEntries _ hx) standard _ hrun, by decide⟩

end SigilExpr
