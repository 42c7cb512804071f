import SigilExpr.Helper.Registry
import SigilExpr.Proofs.Node.Lowering
import SigilExpr.Proofs.Reference.HelperNames

/-!
# The helpers of a source, of its expression and of its compiled tree

Making a compiled tree keeps the names of helpers and their order. From this and from what the
parser reads it follows that a registry which holds every name in the tokens holds every name in
the tree, and that otherwise the first name that it lacks is the one in the fault.

The place in a fault is NOT the place of a token: a name in brackets begins at the bracket.
-/

set_option autoImplicit false

namespace SigilExpr

namespace Node

mutual

/-- The names of the helpers that a compiled tree calls, each before those of its arguments. -/
def helperNames : Node → List String
  | .const _ | .contextRoot | .contextRead _ => []
  | .helper name args => name :: helperNamesAll args
  | .unary _ e => helperNames e
  | .binary _ l r | .logical _ l r => helperNames l ++ helperNames r
  | .conditional t a b => helperNames t ++ (helperNames a ++ helperNames b)
  | .member o _ => helperNames o
  | .index o k => helperNames o ++ helperNames k
  | .method o _ args => helperNames o ++ helperNamesAll args
  | .methodAt o k args => helperNames o ++ (helperNames k ++ helperNamesAll args)
  | .callValue f args => helperNames f ++ helperNamesAll args
  | .array items => helperNamesAll items

def helperNamesAll : List Node → List String
  | [] => []
  | n :: ns => helperNames n ++ helperNamesAll ns

end

theorem helperNames_ofName (name : String) :
    (ofName name).helperNames = if isSigilName name then [name] else [] := by
  unfold ofName
  split
  · next h => simp [helperNames, helperNamesAll, Reference.ofName_eq_helper_iff.1 h]
  · next h => simp [helperNames, ← Reference.ofName_eq_helper_iff, h]
  · next h => simp [helperNames, ← Reference.ofName_eq_helper_iff, h]

end Node

namespace SourceExpr

mutual

theorem Lowers.helperNames_eq {e : SourceExpr} {n : Node} :
    Lowers e n → n.helperNames = e.helperNames
  | .number _ | .string _ | .bool _ | .null => rfl
  | .ident name => by rw [Node.helperNames_ofName, Expr.helperNames_ident]
  | .unary op h => by rw [Node.helperNames, h.helperNames_eq, Expr.helperNames_unary]
  | .binary op hl hr => by
    rw [Node.helperNames, hl.helperNames_eq, hr.helperNames_eq, Expr.helperNames_binary]
  | .logical op hl hr => by
    rw [Node.helperNames, hl.helperNames_eq, hr.helperNames_eq, Expr.helperNames_logical]
  | .conditional ht ha hb => by
    rw [Node.helperNames, ht.helperNames_eq, ha.helperNames_eq, hb.helperNames_eq,
      Expr.helperNames_conditional]
  | .contextMember name ho => by
    rw [Expr.helperNames_member, Expr.helperNames_of_refersTo_contextRoot ho]
    rfl
  | .member name _ ho => by rw [Node.helperNames, ho.helperNames_eq, Expr.helperNames_member]
  | .index ho hk => by
    rw [Node.helperNames, ho.helperNames_eq, hk.helperNames_eq, Expr.helperNames_index]
  | .array hes => by rw [Node.helperNames, hes.helperNamesAll_eq, Expr.helperNames_array]
  | .method name ho hes => by
    rw [Node.helperNames, ho.helperNames_eq, hes.helperNamesAll_eq, Expr.helperNames_call,
      Expr.helperNames_member]
  | .methodAt ho hk hes => by
    rw [Node.helperNames, ho.helperNames_eq, hk.helperNames_eq, hes.helperNamesAll_eq,
      Expr.helperNames_call, Expr.helperNames_index, List.append_assoc]
  | .helper hname hes => by
    rw [Node.helperNames, hes.helperNamesAll_eq, Expr.helperNames_call, Expr.helperNames_ident,
      if_pos (Reference.ofName_eq_helper_iff.1 hname)]
    rfl
  | .callValue _ hf hes => by
    rw [Node.helperNames, hf.helperNames_eq, hes.helperNamesAll_eq, Expr.helperNames_call]

theorem LowersAll.helperNamesAll_eq {es : List SourceExpr} {ns : List Node} :
    LowersAll es ns → Node.helperNamesAll ns = es.flatMap Expr.helperNames
  | .nil => rfl
  | .cons h hs => by
    rw [Node.helperNamesAll, h.helperNames_eq, hs.helperNamesAll_eq, List.flatMap_cons]

end

theorem helperNames_of_toNode (e : SourceExpr) {node : Node} (h : toNode e = .ok node) :
    node.helperNames = e.helperNames :=
  (lowers_of_toNode e h).helperNames_eq

theorem map_fst_helperUses (e : SourceExpr) : (helperUses e).map Prod.fst = e.helperNames := by
  rw [helperUses, List.map_filterMap, Expr.helperNames]
  congr 1
  funext node
  cases node <;> simp only [Expr.helperName?, Option.map_none]
  split <;> rfl

/-- The helpers are looked up in the order of their names in the expression. -/
theorem helpersIn_eq_ok {e : SourceExpr} {isRegistered : String → Bool}
    (h : ∀ name ∈ e.helperNames, isRegistered name = true) :
    helpersIn isRegistered e = .ok (Text.nameSet e.helperNames) := by
  have hnone : (helperUses e).find? (fun use => !isRegistered use.1) = none := by
    rw [List.find?_eq_none]
    intro use huse
    rw [← map_fst_helperUses] at h
    simp [h use.1 (List.mem_map_of_mem huse)]
  rw [helpersIn, hnone, map_fst_helperUses]

theorem helpersIn_eq_error {e : SourceExpr} {isRegistered : String → Bool} {name : String}
    (h : e.helperNames.find? (fun name => !isRegistered name) = some name) :
    ∃ offset, helpersIn isRegistered e = .error (.unresolved name offset) := by
  rw [← map_fst_helperUses, List.find?_map] at h
  obtain ⟨⟨name', offset⟩, huse, rfl⟩ := Option.map_eq_some_iff.1 h
  have hsome : (helperUses e).find? (fun use => !isRegistered use.1) = some (name', offset) := huse
  exact ⟨offset, by rw [helpersIn, hsome]⟩

end SourceExpr

namespace Text

theorem insertName_pairwise {name : String} {ns : List String} (h : ns.Pairwise (· < ·)) :
    (insertName name ns).Pairwise (· < ·) := by
  induction ns with
  | nil => simp [insertName]
  | cons n ns ih =>
    obtain ⟨hn, hns⟩ := List.pairwise_cons.1 h
    rw [insertName]
    split
    · exact h
    · next hne =>
      split
      · next hlt =>
        refine List.pairwise_cons.2 ⟨?_, h⟩
        intro m hm
        rcases List.mem_cons.1 hm with rfl | hm
        · exact hlt
        · exact lt_trans hlt (hn m hm)
      · next hnlt =>
        refine List.pairwise_cons.2 ⟨?_, ih hns⟩
        intro m hm
        rcases (mem_insertName m name ns).1 hm with rfl | hm
        · exact lt_of_le_of_ne (not_lt.1 hnlt) (Ne.symm hne)
        · exact hn m hm

/-- A set of names is in strictly ascending order, so no name is in it twice. -/
theorem nameSet_pairwise (names : List String) : (nameSet names).Pairwise (· < ·) := by
  induction names with
  | nil => exact List.Pairwise.nil
  | cons n ns ih => exact insertName_pairwise ih

end Text

theorem Token.Ended.helperNames_eq {tokens : List Token} {limit : Nat} {e : SourceExpr}
    (hend : Token.Ended tokens) (h : parse limit tokens = .ok e) :
    Token.helperNames tokens = e.helperNames := by
  obtain ⟨ts, t, rfl, ht, hne, -⟩ := hend.exists_body
  have hph := ((parse_eq_ok_iff_phrase ht hne).1 h).1
  rw [Token.helperNames_concat (ht ▸ ⟨rfl, by decide⟩), hph.helperNames_eq]

/-- The tokens of a source, its expression and its compiled tree name the same helpers. If all of
them are registered, resolving the expression gives the set of them; otherwise it fails with the
first in the tokens that is not. -/
theorem resolve_agrees_with_tokens {source : List Char} {tokens : List Token} {limit : Nat}
    {e : SourceExpr} (hs : Token.ofSource source = .ok tokens) (hp : parse limit tokens = .ok e)
    (registry : Registry) :
    ((∀ name ∈ Token.helperNames tokens, registry.contains name = true) →
      ∃ names, e.helpersIn registry.contains = .ok names ∧ names.Pairwise (· < ·) ∧
        (∀ name, name ∈ names ↔ name ∈ Token.helperNames tokens) ∧
        ∀ node, e.toNode = .ok node →
          node.helperNames = Token.helperNames tokens ∧
          ∀ name, name ∈ node.helperNames ↔ name ∈ names) ∧
    ((¬ ∀ name ∈ Token.helperNames tokens, registry.contains name = true) →
      ∃ name offset,
        (Token.helperNames tokens).find? (fun name => !registry.contains name) = some name ∧
        e.helpersIn registry.contains = .error (.unresolved name offset)) := by
  have hnames : Token.helperNames tokens = e.helperNames :=
    (Token.ended_of_ofSource hs).helperNames_eq hp
  rw [hnames]
  constructor
  · intro h
    refine ⟨_, SourceExpr.helpersIn_eq_ok h, Text.nameSet_pairwise _,
      fun name => Text.mem_nameSet name _, ?_⟩
    intro node hnode
    have hn : node.helperNames = e.helperNames := SourceExpr.helperNames_of_toNode e hnode
    exact ⟨hn, fun name => by rw [hn, Text.mem_nameSet]⟩
  · intro h
    cases hfind : e.helperNames.find? (fun name => !registry.contains name) with
    | none =>
      refine absurd ?_ h
      intro name hname
      simpa using List.find?_eq_none.1 hfind name hname
    | some name =>
      obtain ⟨offset, ho⟩ := SourceExpr.helpersIn_eq_error hfind
      exact ⟨name, offset, rfl, ho⟩

/-- A helper that is called, one that is not, and a property that is spelled like one. -/
theorem resolve_agrees_with_tokens_sample :
    ∃ tokens e registry, Token.ofSource "$f($g).$h".toList = .ok tokens ∧
      parse 8 tokens = .ok e ∧ Token.helperNames tokens = ["$f", "$g"] ∧
      (∃ names, e.helpersIn (Registry.contains registry) = .ok names ∧
        ∀ name, name ∈ names ↔ name ∈ Token.helperNames tokens) ∧
      ∃ name offset, e.helpersIn Registry.empty.contains = .error (.unresolved name offset) := by
  let tokens : List Token :=
    [⟨.ident "$f", ⟨0, 2⟩⟩, ⟨.lparen, ⟨2, 3⟩⟩, ⟨.ident "$g", ⟨3, 5⟩⟩, ⟨.rparen, ⟨5, 6⟩⟩,
      ⟨.dot, ⟨6, 7⟩⟩, ⟨.ident "$h", ⟨7, 9⟩⟩, ⟨.eof, ⟨9, 9⟩⟩]
  let e : SourceExpr :=
    .member ⟨⟨0, 9⟩, 3⟩
      (.call ⟨⟨0, 6⟩, 2⟩ (.ident ⟨⟨0, 2⟩, 1⟩ "$f") [.ident ⟨⟨3, 5⟩, 1⟩ "$g"]) "$h"
  let helper : Helper := .mk none fun _ => .finish (.ok .null)
  let registry : Registry := ⟨[("$f", helper), ("$g", helper)]⟩
  have hs : Token.ofSource "$f($g).$h".toList = .ok tokens := rfl
  have hp : parse 8 tokens = .ok e := rfl
  have hall : ∀ name ∈ Token.helperNames tokens, registry.contains name = true := by decide
  have hnone : ¬ ∀ name ∈ Token.helperNames tokens, Registry.empty.contains name = true := by
    decide
  obtain ⟨names, hnames, -, hmem, -⟩ := (resolve_agrees_with_tokens hs hp registry).1 hall
  obtain ⟨name, offset, -, herror⟩ := (resolve_agrees_with_tokens hs hp Registry.empty).2 hnone
  exact ⟨tokens, e, registry, hs, hp, rfl, ⟨names, hnames, hmem⟩, name, offset, herror⟩

end SigilExpr
