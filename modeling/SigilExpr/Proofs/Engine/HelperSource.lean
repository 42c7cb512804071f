import SigilExpr.Proofs.Engine.Restrictions
import SigilExpr.Proofs.Syntax.Spans
import SigilExpr.Proofs.Token.Spelling

/-!
# The name of a helper as a source

A name is one that a helper may have exactly if, as a source, it is the call of the helper of that
name without arguments. So a registry holds a name exactly if the name compiles to that call.
-/

set_option autoImplicit false

namespace SigilExpr

open Text Grammar SigilExpr.Parser

variable {name : String} {limits : Limits}

theorem isName_of_isSigilName (h : isSigilName name = true) : isName name.toList = true := by
  unfold isSigilName at h
  split at h
  · next c cs heq =>
    simp only [Bool.and_eq_true, List.all_eq_true, Bool.or_eq_true] at h
    obtain ⟨hc, hcs⟩ := h
    rw [heq]
    refine isName_cons_iff.2 ⟨rfl, List.forall_mem_cons.2 ⟨?_, ?_⟩⟩
    · simp [isNameRest, Char.isAlphanum, hc]
    · intro d hd
      rcases hcs d hd with h | h <;> simp [isNameRest, h]
  · cases h

/-- The name of a helper is no word of the language. -/
theorem leaf_of_isSigilName (h : isSigilName name = true) {Note : Type} (note : Note) :
    Leaf note (.ofName name) (.ident note name) := by
  have hident : Lexeme.ofName name = .ident name := by
    unfold Lexeme.ofName
    split
    · cases h
    · cases h
    · cases h
    · rfl
  rw [hident]
  refine .ident name ?_
  intro hreserved
  simp only [reservedWords, List.mem_cons, List.not_mem_nil, or_false] at hreserved
  rcases hreserved with rfl | rfl | rfl | rfl <;> cases h

theorem restriction?_of_isSigilName (h : isSigilName name = true) (m : Mark) :
    (Expr.ident m name).restriction? = none := by
  have hreserved : name ≠ Expr.reservedName := by
    rintro rfl
    cases h
  have hsuper : name ≠ "super" := by
    rintro rfl
    cases h
  rw [Expr.restriction?, if_neg hreserved, if_neg hsuper]

theorem Node.ofName_of_isSigilName (h : isSigilName name = true) :
    Node.ofName name = .helper name [] := by
  rw [Node.ofName, Reference.ofName_eq_helper_iff.2 h]

/-- What becomes the call of a helper names the helper. -/
theorem SourceExpr.Lowers.isSigilName_of_helper {e : SourceExpr} {n : Node} {args : List Node}
    (h : Lowers e n) (hn : n = .helper name args) : isSigilName name = true := by
  cases h with
  | ident m =>
    unfold Node.ofName at hn
    split at hn
    · next hm =>
      obtain rfl := (Node.helper.inj hn).1
      exact Reference.ofName_eq_helper_iff.1 hm
    · cases hn
    · cases hn
  | helper hm _ =>
    obtain rfl := (Node.helper.inj hn).1
    exact Reference.ofName_eq_helper_iff.1 hm
  | _ => cases hn

namespace SourceExpr

theorem ofSource_of_isSigilName (h : isSigilName name = true) (hdepth : 1 ≤ limits.maxDepth)
    (hlength : byteLength name.toList ≤ limits.maxSourceLength) :
    ∃ mark, ofSource limits name.toList = .ok (.ident mark name) := by
  let t : Token := ⟨.ofName (String.ofList name.toList), ⟨0, 0 + byteLength name.toList⟩⟩
  have ht : t.lexeme = .ofName name := congrArg Lexeme.ofName String.ofList_toList
  have hrow : Token.Row 0 (name.toList ++ []) [] [t] :=
    .name (isName_of_isSigilName h) (by rintro _ ⟨⟩) .nil
  rw [List.append_nil] at hrow
  have he : Phrase limits.maxDepth .expression [t] (.ident (mark [t] []) name) :=
    (Phrase.leaf (n := 0) (ht ▸ leaf_of_isSigilName h _)).alone (by simp) hdepth
  exact ⟨mark [t] [], ofSource_eq_ok_iff.2 ⟨hlength, ofText_eq_ok_iff.2 ⟨[t], hrow, he, hdepth⟩⟩⟩

/-- The names that helpers may have are the sources that call a helper of their own name. -/
theorem isSigilName_iff_ofSource (hdepth : 1 ≤ limits.maxDepth)
    (hlength : byteLength name.toList ≤ limits.maxSourceLength) :
    isSigilName name = true ↔
      ∃ e, ofSource limits name.toList = .ok e ∧ e.toNode = .ok (.helper name []) := by
  constructor
  · intro h
    obtain ⟨mark, he⟩ := ofSource_of_isSigilName h hdepth hlength
    exact ⟨.ident mark name, he, congrArg Except.ok (Node.ofName_of_isSigilName h)⟩
  · rintro ⟨e, -, hnode⟩
    exact (lowers_of_toNode e hnode).isSigilName_of_helper rfl

end SourceExpr

namespace Compiled

variable {registry : Registry} {c : Compiled} {source : String}

/-- Every helper that a compiled tree calls was registered. -/
theorem contains_of_helper_mem (h : ofSource registry limits source = .ok c) {args : List Node}
    (hn : .helper name args ∈ c.root.nodes) : registry.contains name = true := by
  obtain ⟨hhelpers, hregistered⟩ := helpers_of_ofSource h
  exact hregistered name ((hhelpers name).2 (Node.mem_helperNames_of_mem_nodes c.root hn))

theorem contains_iff_ofSource (hdepth : 1 ≤ limits.maxDepth)
    (hlength : byteLength name.toList ≤ limits.maxSourceLength)
    (hnames : ∀ m ∈ registry.names, isSigilName m = true) :
    registry.contains name = true ↔
      ∃ c, ofSource registry limits name = .ok c ∧ c.root = .helper name [] := by
  constructor
  · intro hcontains
    have hname : isSigilName name = true := hnames name (NameMap.isSome_find?_iff.1 hcontains)
    obtain ⟨mark, he⟩ := SourceExpr.ofSource_of_isSigilName hname hdepth hlength
    let e : SourceExpr := .ident mark name
    have hallowed : ∀ n ∈ e.nodes, n.restriction? = none :=
      List.forall_mem_singleton.2 (restriction?_of_isSigilName hname mark)
    have huses : e.helperNames = [name] := by
      rw [Expr.helperNames_ident, if_pos hname]
    have hregistered : ∀ m ∈ e.helperNames, registry.contains m = true := by
      rw [huses]
      exact List.forall_mem_singleton.2 hcontains
    have hnode : e.toNode = .ok (.helper name []) :=
      congrArg Except.ok (Node.ofName_of_isSigilName hname)
    have hparts := parts_eq_ok_iff.2
      ⟨e, he, SourceExpr.checkAllowed_eq_ok_iff.2 hallowed, hregistered, hnode, rfl⟩
    exact ⟨⟨name, .helper name [], _⟩, ofSource_eq_ok_iff.2 ⟨hparts, rfl⟩, rfl⟩
  · rintro ⟨c, hc, hroot⟩
    have hmem : .helper name [] ∈ c.root.nodes := by
      rw [hroot]
      exact Node.self_mem_nodes _
    exact contains_of_helper_mem hc hmem

end Compiled

end SigilExpr
