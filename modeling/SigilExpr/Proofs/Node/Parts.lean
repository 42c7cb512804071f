import SigilExpr.Proofs.Node.Text

/-!
# The trees inside a chain

The head of a chain and its suffixes have trees inside them, all smaller than the tree of the chain.
So what passes from these trees to the whole one holds of all trees. In a lowered tree they are
lowered too, and the head and the suffixes are as lowering makes them.
-/

set_option autoImplicit false

namespace SigilExpr

namespace Head

/-- The trees inside a head. -/
def parts : Head → List Node
  | .const _ | .root => []
  | .helper _ args => args
  | .unary _ e => [e]
  | .connect _ l r => [l, r]
  | .conditional t a b => [t, a, b]
  | .array items => items

def Plain : Head → Prop
  | .const v => v.Literal
  | .helper name _ => isName name.toList = true
  | _ => True

/-- What the head says itself is as in what a source is compiled to, and so are its trees. -/
structure Sound (h : Head) : Prop where
  plain : h.Plain
  lowered : ∀ p ∈ h.parts, p.Lowered

end Head

namespace Suffix

/-- The trees inside a suffix. -/
def parts : Suffix → List Node
  | .property _ => []
  | .key k => [k]
  | .args ns => ns

def Plain : Suffix → Prop
  | .property name => isName name.toList = true
  | _ => True

structure Sound (s : Suffix) : Prop where
  plain : s.Plain
  lowered : ∀ p ∈ s.parts, p.Lowered

end Suffix

namespace Node

variable {n m : Node}

/-- The trees inside the chain of a tree. -/
def parts (n : Node) : List Node := n.head.parts ++ n.suffixes.flatMap Suffix.parts

/-- The chain of a tree that goes on from the one below it has inside it what that one has, and what
is in the suffixes behind. -/
theorem mem_parts_of_suffixes {o p : Node} {ss : List Suffix} (h : p ∈ n.parts)
    (hhead : n.head = o.head) (hss : n.suffixes = o.suffixes ++ ss) :
    p ∈ o.parts ∨ p ∈ ss.flatMap Suffix.parts := by
  simpa [parts, hhead, hss, or_assoc] using h

theorem exists_child_of_mem_parts {p : Node} (h : p ∈ n.parts) :
    p ∈ n.children ∨ ∃ c ∈ n.children, p ∈ c.parts := by
  cases n with
  | const _ | contextRoot | contextRead _ => cases h
  | helper _ _ | unary _ _ | binary _ _ _ | logical _ _ _ | conditional _ _ _ | array _ =>
    change p ∈ _ ++ [] at h
    rw [List.append_nil] at h
    exact .inl h
  | member o _ =>
    rcases mem_parts_of_suffixes (o := o) h rfl rfl with h | h
    · exact .inr ⟨o, List.mem_cons_self, h⟩
    · cases h
  | index o _ | method o _ _ | methodAt o _ _ | callValue o _ =>
    rcases mem_parts_of_suffixes (o := o) h rfl rfl with h | h
    · exact .inr ⟨o, List.mem_cons_self, h⟩
    · exact .inl (List.mem_cons_of_mem _ (by simpa [Suffix.parts] using h))

/-- What holds of a tree whenever it holds of the trees inside its chain holds of all trees. -/
theorem parts_induction {P : Node → Prop} (step : ∀ n, (∀ p ∈ n.parts, P p) → P n) (n : Node) :
    P n := by
  -- the trees inside a chain lie at any depth below its root, so the induction carries them along
  have hboth : P n ∧ ∀ p ∈ n.parts, P p := by
    induction n using children_induction with
    | step n ih =>
      have hparts : ∀ p ∈ n.parts, P p := by
        intro p hp
        rcases exists_child_of_mem_parts hp with hp | ⟨c, hc, hp⟩
        · exact (ih p hp).1
        · exact (ih c hc).2 p hp
      exact ⟨step n hparts, hparts⟩
  exact hboth.1

theorem Lowered.part (h : n.Lowered) : ∀ p ∈ n.parts, p.Lowered := by
  induction n using children_induction with
  | step n ih =>
    intro p hp
    rcases exists_child_of_mem_parts hp with hp | ⟨c, hc, hp⟩
    · exact h.child hp
    · exact ih c hc (h.child hc) p hp

theorem Lowered.head_plain : {n : Node} → n.Lowered → n.head.Plain
  | .const _, h | .helper _ _, h => h.plain
  | .contextRoot, _ | .contextRead _, _ | .unary _ _, _ | .binary _ _ _, _ | .logical _ _ _, _
  | .conditional _ _ _, _ | .array _, _ => trivial
  | .member _ _, h | .index _ _, h | .method _ _ _, h | .methodAt _ _ _, h | .callValue _ _, h =>
    (h.child List.mem_cons_self).head_plain

theorem Lowered.suffix_plain : {n : Node} → n.Lowered → ∀ s ∈ n.suffixes, s.Plain
  | .const _, _ | .contextRoot, _ | .helper _ _, _ | .unary _ _, _ | .binary _ _ _, _
  | .logical _ _ _, _ | .conditional _ _ _, _ | .array _, _ => fun _ hs => by cases hs
  | .contextRead _, h => List.forall_mem_singleton.2 h.plain
  | .member _ _, h =>
    List.forall_mem_append.2 ⟨(h.child List.mem_cons_self).suffix_plain,
      List.forall_mem_singleton.2 h.plain.2⟩
  | .index _ _, h | .callValue _ _, h =>
    List.forall_mem_append.2 ⟨(h.child List.mem_cons_self).suffix_plain,
      List.forall_mem_singleton.2 trivial⟩
  | .method _ _ _, h =>
    List.forall_mem_append.2 ⟨(h.child List.mem_cons_self).suffix_plain,
      List.forall_mem_cons.2 ⟨h.plain, List.forall_mem_singleton.2 trivial⟩⟩
  | .methodAt _ _ _, h =>
    List.forall_mem_append.2 ⟨(h.child List.mem_cons_self).suffix_plain,
      List.forall_mem_cons.2 ⟨trivial, List.forall_mem_singleton.2 trivial⟩⟩

theorem Lowered.head_sound (h : n.Lowered) : n.head.Sound :=
  ⟨h.head_plain, fun p hp => h.part p (List.mem_append_left _ hp)⟩

theorem Lowered.suffix_sound (h : n.Lowered) : ∀ s ∈ n.suffixes, s.Sound :=
  fun s hs => ⟨h.suffix_plain s hs,
    fun p hp => h.part p (List.mem_append_right _ (List.mem_flatMap.2 ⟨s, hs, hp⟩))⟩

end Node

end SigilExpr
