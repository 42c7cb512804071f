import SigilExpr.Proofs.Syntax.Acceptance
import SigilExpr.Node.OfExpr

/-!
# The tree of a row of lexemes

What an expression becomes does not depend on what is noted at its nodes, so the row of lexemes that
spells an expression determines its compiled tree, wherever the row stands.
-/

set_option autoImplicit false

namespace SigilExpr

theorem toOption_bind {ε α β : Type} (x : Except ε α) (f : α → Except ε β) :
    (x >>= f).toOption = x.toOption.bind fun a => (f a).toOption := by
  cases x <;> rfl

namespace Expr

variable {Note Other Third : Type} (f : Note → Other) (g : Other → Third)

theorem refersTo_map (r : Reference) (e : Expr Note) :
    (e.map f).refersTo r = e.refersTo r := by
  cases e <;> rfl

mutual

theorem map_map : (e : Expr Note) → (e.map f).map g = e.map (g ∘ f)
  | .number _ _ | .string _ _ | .bool _ _ | .null _ | .ident _ _ => rfl
  | .unary _ _ e | .member _ e _ => by simp only [map, map_map e, Function.comp]
  | .binary _ _ l r | .logical _ _ l r | .index _ l r => by
    simp only [map, map_map l, map_map r, Function.comp]
  | .conditional _ t a b => by simp only [map, map_map t, map_map a, map_map b, Function.comp]
  | .call _ e es => by simp only [map, map_map e, mapAll_mapAll es, Function.comp]
  | .array _ es => by simp only [map, mapAll_mapAll es, Function.comp]

theorem mapAll_mapAll : (es : List (Expr Note)) →
    mapAll g (mapAll f es) = mapAll (g ∘ f) es
  | [] => rfl
  | e :: es => by simp only [mapAll, map_map e, mapAll_mapAll es]

end

/-- Expressions with the same bare tree become equal when all that is noted is replaced. -/
theorem map_eq_of_bare_eq {e d : Expr Note} (h : e.bare = d.bare) (n : Other) :
    e.map (fun _ => n) = d.map fun _ => n := by
  have hmap : e.bare.map (fun _ => n) = d.bare.map fun _ => n := by rw [h]
  simpa only [bare, map_map, Function.comp_def] using hmap

end Expr

namespace SourceExpr

mutual

/-- The tree does not depend on the marks. -/
theorem toOption_toNode_map (f : Mark → Mark) : (e : SourceExpr) →
    (toNode (e.map f)).toOption = (toNode e).toOption
  | .number _ x => by
    rw [Expr.map, toNode, toNode]
    split <;> rfl
  | .string _ _ | .bool _ _ | .null _ | .ident _ _ => rfl
  | .unary _ _ e => by
    simp only [Expr.map, toNode, toOption_bind, toOption_toNode_map f e]
  | .binary _ _ l r | .logical _ _ l r => by
    simp only [Expr.map, toNode, toOption_bind, toOption_toNode_map f l, toOption_toNode_map f r]
  | .conditional _ t a b => by
    simp only [Expr.map, toNode, toOption_bind, toOption_toNode_map f t, toOption_toNode_map f a,
      toOption_toNode_map f b]
  | .member _ o _ => by
    simp only [Expr.map, toNode, Expr.refersTo_map]
    split
    · rfl
    · simp only [toOption_bind, toOption_toNode_map f o]
  | .index _ o k => by
    simp only [Expr.map, toNode, toOption_bind, toOption_toNode_map f o, toOption_toNode_map f k]
  | .array _ es => by
    simp only [Expr.map, toNode, toOption_bind, toOption_toNodes_map f es]
  | .call _ callee es => by
    simp only [Expr.map, toNode, toOption_bind, toOption_toNodes_map f es]
    refine congrArg _ (funext fun ns => ?_)
    have hcallee := toOption_toNode_map f callee
    cases callee with
    | member _ o name => simp only [Expr.map, toOption_bind, toOption_toNode_map f o]
    | index _ o k =>
      simp only [Expr.map, toOption_bind, toOption_toNode_map f o, toOption_toNode_map f k]
    | ident _ name => rfl
    | _ =>
      simp only [Expr.map] at hcallee ⊢
      simp only [toOption_bind, hcallee]

theorem toOption_toNodes_map (f : Mark → Mark) : (es : List SourceExpr) →
    (toNodes (Expr.mapAll f es)).toOption = (toNodes es).toOption
  | [] => rfl
  | e :: es => by
    simp only [Expr.mapAll, toNodes, toOption_bind, toOption_toNode_map f e,
      toOption_toNodes_map f es]

end

/-- Expressions with the same bare tree become the same compiled tree. -/
theorem toNode_unique {e d : SourceExpr} (h : e.bare = d.bare) {n m : Node}
    (he : e.toNode = .ok n) (hd : d.toNode = .ok m) : n = m := by
  have hsame : e.toNode.toOption = d.toNode.toOption := by
    rw [← toOption_toNode_map (fun _ => default) e, ← toOption_toNode_map (fun _ => default) d,
      Expr.map_eq_of_bare_eq h]
  rw [he, hd] at hsame
  exact Option.some.inj hsame

end SourceExpr

/-- A bare tree becomes this compiled tree, whatever the marks. -/
def Expr.Becomes (t : Expr Unit) (n : Node) : Prop :=
  ∃ e : SourceExpr, e.bare = t ∧ e.toNode = .ok n

theorem Expr.Becomes.unique {t : Expr Unit} {n m : Node} (hn : t.Becomes n) (hm : t.Becomes m) :
    n = m := by
  obtain ⟨e, rfl, he⟩ := hn
  obtain ⟨d, hd, hm⟩ := hm
  exact SourceExpr.toNode_unique hd.symm he hm

namespace Grammar

/-- What a row of lexemes spells becomes this compiled tree. -/
def CompilesTo (row : List Lexeme) (n : Node) : Prop :=
  ∃ t, Derives .expression row t ∧ t.Becomes n

theorem CompilesTo.unique {row : List Lexeme} {n m : Node} (hn : CompilesTo row n)
    (hm : CompilesTo row m) : n = m := by
  obtain ⟨t, ht, hn⟩ := hn
  obtain ⟨t', ht', hm⟩ := hm
  obtain rfl : t = t' := ht.unique ht'
  exact hn.unique hm

end Grammar

end SigilExpr
