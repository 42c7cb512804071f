import SigilExpr.Proofs.Node.Subtrees
import SigilExpr.Proofs.Syntax.Phrase
import SigilExpr.Proofs.Syntax.Subexpressions
import SigilExpr.Node.OfExpr

/-!
# What an expression becomes

`Lowers` lists the ways in which an expression becomes a compiled tree, one rule for each form. The
calls have four: of a property, of what is under a key, of a helper by its name, and of any other
value. A property of the whole context becomes a read, and its object leaves no node.
-/

set_option autoImplicit false

namespace SigilExpr

namespace Expr

/-- Whether a call of the expression is the call of a value that it comes to. -/
def isValueCallee {Note : Type} : Expr Note → Bool
  | .member _ _ _ | .index _ _ _ => false
  | e => !e.refersTo .helper

end Expr

namespace SourceExpr

mutual

inductive Lowers : SourceExpr → Node → Prop where
  | number {m x n} : Number.ofBinary64? x = some n → Lowers (.number m x) (.const (.number n))
  | string {m} (s : String) : Lowers (.string m s) (.const (.string s))
  | bool {m} (b : Bool) : Lowers (.bool m b) (.const (.bool b))
  | null {m} : Lowers (.null m) (.const .null)
  | ident {m} (name : String) : Lowers (.ident m name) (.ofName name)
  | unary {m e n} (op : UnaryOp) : Lowers e n → Lowers (.unary m op e) (.unary op n)
  | binary {m l r p q} (op : BinaryOp) : Lowers l p → Lowers r q →
      Lowers (.binary m op l r) (.binary op p q)
  | logical {m l r p q} (op : LogicalOp) : Lowers l p → Lowers r q →
      Lowers (.logical m op l r) (.logical op p q)
  | conditional {m t a b p q r} : Lowers t p → Lowers a q → Lowers b r →
      Lowers (.conditional m t a b) (.conditional p q r)
  | contextMember {m o} (name : String) : o.refersTo .contextRoot = true →
      Lowers (.member m o name) (.contextRead name)
  | member {m o n} (name : String) : o.refersTo .contextRoot = false → Lowers o n →
      Lowers (.member m o name) (.member n name)
  | index {m o k p q} : Lowers o p → Lowers k q → Lowers (.index m o k) (.index p q)
  | array {m es ns} : LowersAll es ns → Lowers (.array m es) (.array ns)
  | method {m k o n es ns} (name : String) : Lowers o n → LowersAll es ns →
      Lowers (.call m (.member k o name) es) (.method n name ns)
  | methodAt {m i o k p q es ns} : Lowers o p → Lowers k q → LowersAll es ns →
      Lowers (.call m (.index i o k) es) (.methodAt p q ns)
  | helper {m k name es ns} : Reference.ofName name = .helper → LowersAll es ns →
      Lowers (.call m (.ident k name) es) (.helper name ns)
  | callValue {m f n es ns} : f.isValueCallee = true → Lowers f n → LowersAll es ns →
      Lowers (.call m f es) (.callValue n ns)

inductive LowersAll : List SourceExpr → List Node → Prop where
  | nil : LowersAll [] []
  | cons {e n es ns} : Lowers e n → LowersAll es ns → LowersAll (e :: es) (n :: ns)

end

mutual

theorem lowers_of_toNode : (e : SourceExpr) → {n : Node} → toNode e = .ok n → Lowers e n
  | .number mark x, n, h => by
    rw [toNode] at h
    split at h
    · next hx =>
      obtain rfl := Except.ok.inj h
      exact .number hx
    · cases h
  | .string _ s, n, h => by
    obtain rfl := Except.ok.inj h
    exact .string s
  | .bool _ b, n, h => by
    obtain rfl := Except.ok.inj h
    exact .bool b
  | .null _, n, h => by
    obtain rfl := Except.ok.inj h
    exact .null
  | .ident _ name, n, h => by
    obtain rfl := Except.ok.inj h
    exact .ident name
  | .unary _ op e, n, h => by
    simp only [toNode, bind_eq_ok_iff] at h
    obtain ⟨p, hp, h⟩ := h
    obtain rfl := Except.ok.inj h
    exact .unary op (lowers_of_toNode e hp)
  | .binary _ op l r, n, h => by
    simp only [toNode, bind_eq_ok_iff] at h
    obtain ⟨p, hp, q, hq, h⟩ := h
    obtain rfl := Except.ok.inj h
    exact .binary op (lowers_of_toNode l hp) (lowers_of_toNode r hq)
  | .logical _ op l r, n, h => by
    simp only [toNode, bind_eq_ok_iff] at h
    obtain ⟨p, hp, q, hq, h⟩ := h
    obtain rfl := Except.ok.inj h
    exact .logical op (lowers_of_toNode l hp) (lowers_of_toNode r hq)
  | .conditional _ t a b, n, h => by
    simp only [toNode, bind_eq_ok_iff] at h
    obtain ⟨p, hp, q, hq, r, hr, h⟩ := h
    obtain rfl := Except.ok.inj h
    exact .conditional (lowers_of_toNode t hp) (lowers_of_toNode a hq) (lowers_of_toNode b hr)
  | .member _ o name, n, h => by
    rw [toNode] at h
    split at h
    · next ho =>
      obtain rfl := Except.ok.inj h
      exact .contextMember name ho
    · next ho =>
      obtain ⟨p, hp, h⟩ := bind_eq_ok_iff.1 h
      obtain rfl := Except.ok.inj h
      exact .member name (Bool.eq_false_iff.2 ho) (lowers_of_toNode o hp)
  | .index _ o k, n, h => by
    simp only [toNode, bind_eq_ok_iff] at h
    obtain ⟨p, hp, q, hq, h⟩ := h
    obtain rfl := Except.ok.inj h
    exact .index (lowers_of_toNode o hp) (lowers_of_toNode k hq)
  | .array _ es, n, h => by
    simp only [toNode, bind_eq_ok_iff] at h
    obtain ⟨ns, hns, h⟩ := h
    obtain rfl := Except.ok.inj h
    exact .array (lowersAll_of_toNodes es hns)
  | .call _ callee es, n, h => by
    rw [toNode, bind_eq_ok_iff] at h
    obtain ⟨ns, hns, h⟩ := h
    have hall := lowersAll_of_toNodes es hns
    cases callee with
    | member _ o name =>
      simp only [bind_eq_ok_iff] at h
      obtain ⟨p, hp, h⟩ := h
      obtain rfl := Except.ok.inj h
      exact .method name (lowers_of_toNode o hp) hall
    | index _ o k =>
      simp only [bind_eq_ok_iff] at h
      obtain ⟨p, hp, q, hq, h⟩ := h
      obtain rfl := Except.ok.inj h
      exact .methodAt (lowers_of_toNode o hp) (lowers_of_toNode k hq) hall
    | ident k name =>
      dsimp only at h
      split at h
      · next hname =>
        obtain rfl := Except.ok.inj h
        exact .helper hname hall
      · next hname =>
        obtain rfl := Except.ok.inj h
        exact .callValue (by simp [Expr.isValueCallee, Expr.refersTo, hname]) (.ident name) hall
    | _ =>
      obtain ⟨p, hp, h⟩ := bind_eq_ok_iff.1 h
      obtain rfl := Except.ok.inj h
      exact .callValue rfl (lowers_of_toNode _ hp) hall

theorem lowersAll_of_toNodes : (es : List SourceExpr) → {ns : List Node} →
    toNodes es = .ok ns → LowersAll es ns
  | [], ns, h => by
    obtain rfl := Except.ok.inj h
    exact .nil
  | e :: es, ns, h => by
    simp only [toNodes, bind_eq_ok_iff] at h
    obtain ⟨p, hp, ps, hps, h⟩ := h
    obtain rfl := Except.ok.inj h
    exact .cons (lowers_of_toNode e hp) (lowersAll_of_toNodes es hps)

end

theorem LowersAll.exists_of_mem {es : List SourceExpr} {ns : List Node} {n : Node}
    (h : LowersAll es ns) (hn : n ∈ ns) : ∃ e ∈ es, Lowers e n := by
  induction ns generalizing es with
  | nil => cases hn
  | cons p ps ih =>
    cases h with
    | @cons e _ es _ he hes =>
      rcases List.mem_cons.1 hn with rfl | hn
      · exact ⟨e, List.mem_cons_self, he⟩
      · obtain ⟨d, hd, hlowers⟩ := ih hes hn
        exact ⟨d, List.mem_cons_of_mem e hd, hlowers⟩

/-- The tree below a child is what an expression below becomes, at most two levels down: the object
and the key of a method stand below the property that is called. -/
theorem Lowers.exists_of_mem_children {e : SourceExpr} {n c : Node} (h : Lowers e n)
    (hc : c ∈ n.children) : ∃ d ∈ e.descendants, Lowers d c := by
  have child {d f : SourceExpr} (hd : d ∈ f.children) : d ∈ f.descendants :=
    Expr.mem_descendants_of_mem_children hd
  have callee {m : Mark} {f d : SourceExpr} {es : List SourceExpr} (hd : d ∈ f.children) :
      d ∈ (Expr.call m f es).descendants :=
    Expr.mem_descendants_iff.2 ⟨f, List.mem_cons_self, f.descendants_subset_nodes (child hd)⟩
  have argument {m : Mark} {f d : SourceExpr} {es : List SourceExpr} (hd : d ∈ es) :
      d ∈ (Expr.call m f es).descendants := child (List.mem_cons_of_mem f hd)
  cases h with
  | number _ | string _ | bool _ | null | contextMember _ _ => cases hc
  | ident name =>
    unfold Node.ofName at hc
    split at hc <;> cases hc
  | unary op h | member _ _ h =>
    obtain rfl := List.mem_singleton.1 hc
    exact ⟨_, child (by simp [Expr.children]), h⟩
  | binary op hl hr | logical op hl hr | index hl hr =>
    simp only [Node.children, List.mem_cons, List.not_mem_nil, or_false] at hc
    rcases hc with rfl | rfl
    · exact ⟨_, child (by simp [Expr.children]), hl⟩
    · exact ⟨_, child (by simp [Expr.children]), hr⟩
  | conditional ht ha hb =>
    simp only [Node.children, List.mem_cons, List.not_mem_nil, or_false] at hc
    rcases hc with rfl | rfl | rfl
    · exact ⟨_, child (by simp [Expr.children]), ht⟩
    · exact ⟨_, child (by simp [Expr.children]), ha⟩
    · exact ⟨_, child (by simp [Expr.children]), hb⟩
  | array hes =>
    obtain ⟨d, hd, h⟩ := hes.exists_of_mem hc
    exact ⟨d, child hd, h⟩
  | method name ho hes =>
    rcases List.mem_cons.1 hc with rfl | hc
    · exact ⟨_, callee (by simp [Expr.children]), ho⟩
    · obtain ⟨d, hd, h⟩ := hes.exists_of_mem hc
      exact ⟨d, argument hd, h⟩
  | methodAt ho hk hes =>
    simp only [Node.children, List.mem_cons] at hc
    rcases hc with rfl | rfl | hc
    · exact ⟨_, callee (by simp [Expr.children]), ho⟩
    · exact ⟨_, callee (by simp [Expr.children]), hk⟩
    · obtain ⟨d, hd, h⟩ := hes.exists_of_mem hc
      exact ⟨d, argument hd, h⟩
  | helper _ hes =>
    obtain ⟨d, hd, h⟩ := hes.exists_of_mem hc
    exact ⟨d, argument hd, h⟩
  | callValue _ hf hes =>
    rcases List.mem_cons.1 hc with rfl | hc
    · exact ⟨_, child List.mem_cons_self, hf⟩
    · obtain ⟨d, hd, h⟩ := hes.exists_of_mem hc
      exact ⟨d, argument hd, h⟩

/-- Every node of a compiled tree is what some node of the expression becomes. -/
theorem Lowers.exists_of_mem_nodes {n m : Node} (hm : m ∈ n.nodes) :
    ∀ {e : SourceExpr}, Lowers e n → ∃ d ∈ e.nodes, Lowers d m := by
  induction n using Node.children_induction with
  | step n ih =>
    intro e h
    rw [Node.nodes_eq_concat, List.mem_append, List.mem_flatMap, List.mem_singleton] at hm
    rcases hm with ⟨c, hc, hm⟩ | rfl
    · obtain ⟨d, hd, hlowers⟩ := h.exists_of_mem_children hc
      obtain ⟨f, hf, hnode⟩ := ih c hc hm hlowers
      exact ⟨f, Expr.nodes_subset_of_mem_nodes (e.descendants_subset_nodes hd) hf, hnode⟩
    · exact ⟨e, e.self_mem_nodes, h⟩

end SourceExpr

end SigilExpr
