import SigilExpr.Node.Text
import SigilExpr.Proofs.Node.Content

/-!
# Trees as chains

The text of a compiled tree is that of its head and then those of the suffixes behind it:
properties, keys and arguments, which stand without parentheses. A read of the context is a suffix
of the whole context there, and so a call of what it reads cannot be told from the call of a method
of the whole context. The chain says nothing else less than the tree.
-/

set_option autoImplicit false

namespace SigilExpr

/-- A tree whose text does not begin with that of a tree below its root and a suffix. -/
inductive Head where
  | const (v : Value)
  | root
  | helper (name : String) (args : List Node)
  | unary (op : UnaryOp) (operand : Node)
  | connect (op : Connective) (left right : Node)
  | conditional (test consequent alternate : Node)
  | array (items : List Node)

/-- What may stand behind a tree. -/
inductive Suffix where
  | property (name : String)
  | key (key : Node)
  | args (args : List Node)

namespace Node

def head : Node → Head
  | .const v => .const v
  | .contextRoot | .contextRead _ => .root
  | .helper name args => .helper name args
  | .unary op e => .unary op e
  | .binary op l r => .connect (.binary op) l r
  | .logical op l r => .connect (.logical op) l r
  | .conditional t a b => .conditional t a b
  | .array items => .array items
  | .member o _ | .index o _ | .method o _ _ | .methodAt o _ _ | .callValue o _ => head o

def suffixes : Node → List Suffix
  | .contextRead name => [.property name]
  | .member o name => suffixes o ++ [.property name]
  | .index o k => suffixes o ++ [.key k]
  | .method o name args => suffixes o ++ [.property name, .args args]
  | .methodAt o k args => suffixes o ++ [.key k, .args args]
  | .callValue f args => suffixes f ++ [.args args]
  | _ => []

mutual

/-- The tree with each call of a read of the context as the call of a method of the context. -/
def identified : Node → Node
  | .const v => .const v
  | .contextRoot => .contextRoot
  | .contextRead name => .contextRead name
  | .helper name args => .helper name (identifiedAll args)
  | .unary op e => .unary op (identified e)
  | .binary op l r => .binary op (identified l) (identified r)
  | .logical op l r => .logical op (identified l) (identified r)
  | .conditional t a b => .conditional (identified t) (identified a) (identified b)
  | .member o name => .member (identified o) name
  | .index o k => .index (identified o) (identified k)
  | .method o name args => .method (identified o) name (identifiedAll args)
  | .methodAt o k args => .methodAt (identified o) (identified k) (identifiedAll args)
  | .callValue (.contextRead name) args => .method .contextRoot name (identifiedAll args)
  | .callValue f args => .callValue (identified f) (identifiedAll args)
  | .array items => .array (identifiedAll items)

def identifiedAll : List Node → List Node
  | [] => []
  | n :: ns => identified n :: identifiedAll ns

end

/-- A tree with one more suffix. -/
def attach : Node → Suffix → Node
  | .contextRoot, .property name => .contextRead name
  | o, .property name => .member o name
  | o, .key k => .index o k
  | .member o name, .args args => .method o name args
  | .index o k, .args args => .methodAt o k args
  | .contextRead name, .args args => .method .contextRoot name args
  | f, .args args => .callValue f args

end Node

namespace Head

/-- The trees in the head, each identified. -/
def identified : Head → Head
  | .const v => .const v
  | .root => .root
  | .helper name args => .helper name (Node.identifiedAll args)
  | .unary op e => .unary op e.identified
  | .connect op l r => .connect op l.identified r.identified
  | .conditional t a b => .conditional t.identified a.identified b.identified
  | .array items => .array (Node.identifiedAll items)

def node : Head → Node
  | .const v => .const v
  | .root => .contextRoot
  | .helper name args => .helper name args
  | .unary op e => .unary op e
  | .connect (.binary op) l r => .binary op l r
  | .connect (.logical op) l r => .logical op l r
  | .conditional t a b => .conditional t a b
  | .array items => .array items

end Head

namespace Suffix

def identified : Suffix → Suffix
  | .property name => .property name
  | .key k => .key k.identified
  | .args ns => .args (Node.identifiedAll ns)

end Suffix

namespace Node

/-- All nodes of the tree are plain, as in what a source is compiled to. -/
def Lowered (n : Node) : Prop := ∀ m ∈ n.nodes, m.Plain

theorem Lowered.plain {n : Node} (h : n.Lowered) : n.Plain := h n n.self_mem_nodes

theorem Lowered.child {n c : Node} (h : n.Lowered) (hc : c ∈ n.children) : c.Lowered := by
  intro m hm
  apply h
  rw [nodes_eq_concat]
  exact List.mem_append_left _ (List.mem_flatMap.2 ⟨c, hc, hm⟩)

section Attach

variable {o f : Node} {name : String} {args : List Node}

theorem attach_property (ho : o ≠ .contextRoot) : o.attach (.property name) = .member o name := by
  cases o <;> first | rfl | exact absurd rfl ho

theorem attach_key (o k : Node) : o.attach (.key k) = .index o k := by
  cases o <;> rfl

theorem attach_args (hf : f.isProperty = false) (hread : ∀ name, f ≠ .contextRead name) :
    f.attach (.args args) = .callValue f args := by
  cases f with
  | member _ _ | index _ _ => cases hf
  | contextRead name => exact absurd rfl (hread name)
  | _ => rfl

theorem identified_callValue (hread : ∀ name, f ≠ .contextRead name) :
    (callValue f args).identified = .callValue f.identified (identifiedAll args) := by
  cases f with
  | contextRead name => exact absurd rfl (hread name)
  | _ => rfl

theorem identified_ne_contextRoot (ho : o ≠ .contextRoot) : o.identified ≠ .contextRoot := by
  cases o with
  | contextRoot => exact absurd rfl ho
  | callValue f args => cases f <;> simp [identified]
  | _ => simp [identified]

theorem identified_ne_contextRead (hread : ∀ name, f ≠ .contextRead name) :
    ∀ name, f.identified ≠ .contextRead name := by
  intro name
  cases f with
  | contextRead m => exact absurd rfl (hread m)
  | callValue g args => cases g <;> simp [identified]
  | _ => simp [identified]

theorem isProperty_identified (f : Node) : f.identified.isProperty = f.isProperty := by
  cases f with
  | callValue g args => cases g <;> rfl
  | _ => rfl

end Attach

/-- The tree with a head and the suffixes behind it. -/
def ofChain (h : Head) (ss : List Suffix) : Node := ss.foldl attach h.node

theorem ofChain_append (h : Head) (ss ts : List Suffix) :
    ofChain h (ss ++ ts) = ts.foldl attach (ofChain h ss) := List.foldl_append

/-- The chain of a tree gives the tree back, up to the calls that it cannot tell apart. -/
theorem identified_eq_ofChain : (n : Node) → n.Lowered →
    n.identified = ofChain n.head.identified (n.suffixes.map Suffix.identified)
  | .const _, _ | .contextRoot, _ | .contextRead _, _ | .helper _ _, _ | .unary _ _, _
  | .binary _ _ _, _ | .logical _ _ _, _ | .conditional _ _ _, _ | .array _, _ => rfl
  | .member o name, h => by
    have ih := identified_eq_ofChain o (h.child List.mem_cons_self)
    have ho := identified_ne_contextRoot h.plain.1
    rw [suffixes, head, List.map_append, ofChain_append, ← ih]
    exact (attach_property ho).symm
  | .index o k, h => by
    have ih := identified_eq_ofChain o (h.child List.mem_cons_self)
    rw [suffixes, head, List.map_append, ofChain_append, ← ih]
    exact (attach_key _ _).symm
  | .method o name args, h => by
    have ih := identified_eq_ofChain o (h.child List.mem_cons_self)
    rw [suffixes, head, List.map_append, ofChain_append, ← ih]
    change _ = attach (attach o.identified (.property name)) (.args (identifiedAll args))
    -- behind the whole context the property is first attached as a read of the context
    by_cases ho : o.identified = .contextRoot
    · rw [identified, ho]
      rfl
    · rw [identified, attach_property ho]
      rfl
  | .methodAt o k args, h => by
    have ih := identified_eq_ofChain o (h.child List.mem_cons_self)
    rw [suffixes, head, List.map_append, ofChain_append, ← ih]
    change _ = attach (attach o.identified (.key k.identified)) (.args (identifiedAll args))
    rw [identified, attach_key]
    rfl
  | .callValue f args, h => by
    have ih := identified_eq_ofChain f (h.child List.mem_cons_self)
    rw [suffixes, head, List.map_append, ofChain_append, ← ih]
    change _ = attach f.identified (.args (identifiedAll args))
    by_cases hread : ∃ name, f = .contextRead name
    · obtain ⟨name, rfl⟩ := hread
      rfl
    · rw [not_exists] at hread
      have hf : f.identified.isProperty = false := (isProperty_identified f).trans h.plain
      rw [identified_callValue hread, attach_args hf (identified_ne_contextRead hread)]

end Node

end SigilExpr
