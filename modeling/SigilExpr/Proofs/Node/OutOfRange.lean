import Mathlib.Data.List.Perm.Basic
import SigilExpr.Node.OfExpr
import SigilExpr.Proofs.Syntax.Nesting
import SigilExpr.Proofs.Syntax.Placement

/-!
# Literals out of range

Nothing but a literal out of range keeps an expression from becoming a tree. The fault is that of
the first one in the order in which the tree is made. This is the order of reading, except that the
arguments of a call come before what is called: in `1e999(2e999)` the second literal is the fault.
-/

set_option autoImplicit false

namespace SigilExpr

/-- A literal has no number to stand for exactly if it is not finite. -/
theorem Number.ofBinary64?_eq_none_iff {x : Binary64} :
    ofBinary64? x = none ↔ x.isFinite = false := by
  cases x with
  | nan | infinite negative => exact ⟨fun _ => rfl, fun _ => rfl⟩
  | finite negative m e =>
    refine ⟨fun h => ?_, nofun⟩
    unfold ofBinary64? at h
    split at h
    · split at h <;> cases h
    · cases h

section

variable {ε α β : Type}

def faultOf? : Except ε α → Option ε
  | .ok _ => none
  | .error f => some f

theorem faultOf?_eq_some_iff {x : Except ε α} {f : ε} : faultOf? x = some f ↔ x = .error f := by
  cases x <;> simp [faultOf?]

theorem faultOf?_bind_pure (x : Except ε α) (g : α → β) :
    faultOf? (x >>= fun a => pure (g a)) = faultOf? x := by
  cases x <;> rfl

/-- What follows can only add a fault behind that of the first part. -/
theorem faultOf?_bind {x : Except ε α} {f : α → Except ε β} {o : Option ε}
    (hf : ∀ a, faultOf? (f a) = o) : faultOf? (x >>= f) = (faultOf? x).or o := by
  cases x with
  | ok a => exact hf a
  | error e => rfl

end

namespace SourceExpr

def isOutOfRange : SourceExpr → Bool
  | .number _ x => !x.isFinite
  | _ => false

def HoldsOutOfRange (e : SourceExpr) : Prop := ∃ n ∈ e.nodes, isOutOfRange n = true

def rangeFault (e : SourceExpr) : Fault := .malformed .numberOutOfRange e.span

mutual

/-- The literals out of range, in the order in which the tree is made. -/
def outOfRange : SourceExpr → List SourceExpr
  | .number mark x => if x.isFinite then [] else [.number mark x]
  | .string _ _ | .bool _ _ | .null _ | .ident _ _ => []
  | .unary _ _ e | .member _ e _ => outOfRange e
  | .binary _ _ l r | .logical _ _ l r | .index _ l r => outOfRange l ++ outOfRange r
  | .conditional _ t a b => outOfRange t ++ (outOfRange a ++ outOfRange b)
  | .call _ callee args => outOfRangeAll args ++ outOfRange callee
  | .array _ items => outOfRangeAll items

def outOfRangeAll : List SourceExpr → List SourceExpr
  | [] => []
  | e :: es => outOfRange e ++ outOfRangeAll es

end

/-- The fault of the first of some literals out of range. -/
def firstFault (ns : List SourceExpr) : Option Fault := ns.head?.map rangeFault

theorem firstFault_append (ns ms : List SourceExpr) :
    firstFault (ns ++ ms) = (firstFault ns).or (firstFault ms) := by
  rw [firstFault, List.head?_append, Option.map_or]
  rfl

mutual

/-- The fault of making a tree is that of the first literal out of range. -/
theorem faultOf?_toNode : (e : SourceExpr) → faultOf? e.toNode = firstFault e.outOfRange
  | .number mark x => by
    rw [toNode, outOfRange]
    split
    · next hx =>
      have hfinite : x.isFinite = true := by
        by_contra hnot
        rw [Number.ofBinary64?_eq_none_iff.2 (Bool.eq_false_iff.2 hnot)] at hx
        cases hx
      rw [if_pos hfinite]
      rfl
    · next hx =>
      rw [if_neg (by simp [Number.ofBinary64?_eq_none_iff.1 hx])]
      rfl
  | .string _ _ | .bool _ _ | .null _ | .ident _ _ => rfl
  | .unary _ _ e => by
    rw [toNode, outOfRange, faultOf?_bind_pure, faultOf?_toNode e]
  | .binary _ _ l r | .logical _ _ l r | .index _ l r => by
    rw [toNode, outOfRange, firstFault_append, ← faultOf?_toNode l, ← faultOf?_toNode r]
    exact faultOf?_bind fun _ => faultOf?_bind_pure _ _
  | .conditional _ t a b => by
    rw [toNode, outOfRange, firstFault_append, firstFault_append, ← faultOf?_toNode t,
      ← faultOf?_toNode a, ← faultOf?_toNode b]
    exact faultOf?_bind fun _ => faultOf?_bind fun _ =>
      faultOf?_bind_pure _ _
  | .member _ o _ => by
    rw [toNode, outOfRange]
    split
    · next ho =>
      cases o with
      | ident _ _ => rfl
      | _ => cases ho
    · rw [faultOf?_bind_pure, faultOf?_toNode o]
  | .array _ items => by
    rw [toNode, outOfRange, faultOf?_bind_pure, faultOf?_toNodes items]
  | .call _ callee args => by
    rw [toNode, outOfRange, firstFault_append, ← faultOf?_toNodes args]
    refine faultOf?_bind fun ns => ?_
    have hcallee := faultOf?_toNode callee
    cases callee with
    | member _ o name =>
      rw [outOfRange, ← faultOf?_toNode o]
      exact faultOf?_bind_pure _ _
    | index _ o k =>
      rw [outOfRange, firstFault_append, ← faultOf?_toNode o, ← faultOf?_toNode k]
      exact faultOf?_bind fun _ => faultOf?_bind_pure _ _
    | ident _ name =>
      dsimp only
      split <;> rfl
    | _ =>
      rw [← hcallee]
      exact faultOf?_bind_pure _ _

theorem faultOf?_toNodes :
    (es : List SourceExpr) → faultOf? (toNodes es) = firstFault (outOfRangeAll es)
  | [] => rfl
  | e :: es => by
    rw [toNodes, outOfRangeAll, firstFault_append, ← faultOf?_toNode e, ← faultOf?_toNodes es]
    exact faultOf?_bind fun _ => faultOf?_bind_pure _ _

end

theorem outOfRangeAll_eq_flatMap (es : List SourceExpr) :
    outOfRangeAll es = es.flatMap outOfRange := by
  induction es with
  | nil => rfl
  | cons e es ih => rw [outOfRangeAll, ih, List.flatMap_cons]

/-- The children in the order in which their trees are made. -/
def made : SourceExpr → List SourceExpr
  | .call _ callee args => args ++ [callee]
  | e => e.children

theorem made_perm_children (e : SourceExpr) : e.made.Perm e.children := by
  cases e with
  | call _ callee args => exact List.perm_append_singleton callee args
  | _ => exact .refl _

theorem outOfRange_eq (e : SourceExpr) :
    e.outOfRange = [e].filter isOutOfRange ++ e.made.flatMap outOfRange := by
  cases e with
  | number mark x =>
    cases h : x.isFinite <;> simp [outOfRange, made, Expr.children, isOutOfRange, h]
  | _ => simp [outOfRange, made, Expr.children, isOutOfRange, outOfRangeAll_eq_flatMap]

theorem filter_nodes_eq (e : SourceExpr) :
    e.nodes.filter isOutOfRange =
      [e].filter isOutOfRange ++ e.children.flatMap fun c => c.nodes.filter isOutOfRange := by
  rw [Expr.nodes_eq_cons, ← List.singleton_append, List.filter_append, List.filter_flatMap]

/-- The tree is made with every literal out of range, each once. -/
theorem outOfRange_perm (e : SourceExpr) : e.outOfRange.Perm (e.nodes.filter isOutOfRange) := by
  induction e using Expr.children_induction with
  | step e ih =>
    rw [outOfRange_eq, filter_nodes_eq]
    have hmade := made_perm_children e
    exact (hmade.flatMap fun c hc => ih c (hmade.subset hc)).append_left _

theorem mem_outOfRange_iff {e n : SourceExpr} :
    n ∈ e.outOfRange ↔ n ∈ e.nodes ∧ n.isOutOfRange = true := by
  rw [e.outOfRange_perm.mem_iff, List.mem_filter]

/-- No call has literals out of range both in what is called and in its arguments. -/
def CallsAreOneSided (e : SourceExpr) : Prop :=
  ∀ mark callee args, .call mark callee args ∈ e.nodes →
    HoldsOutOfRange callee → ∀ arg ∈ args, ¬ HoldsOutOfRange arg

theorem filter_nodes_eq_nil {e : SourceExpr} (h : ¬ e.HoldsOutOfRange) :
    e.nodes.filter isOutOfRange = [] := by
  rw [List.filter_eq_nil_iff]
  exact fun n hn hrange => h ⟨n, hn, hrange⟩

/-- Then the literals out of range come in the order of reading. -/
theorem CallsAreOneSided.outOfRange_eq_filter {e : SourceExpr} (h : e.CallsAreOneSided) :
    e.outOfRange = e.nodes.filter isOutOfRange := by
  induction e using Expr.children_induction with
  | step e ih =>
    have hchild : ∀ c ∈ e.children, outOfRange c = c.nodes.filter isOutOfRange := fun c hc =>
      ih c hc fun m f args hcall => h m f args (Expr.nodes_subset_of_mem_children hc hcall)
    have hmade : (made e).flatMap outOfRange =
        (made e).flatMap fun c => c.nodes.filter isOutOfRange :=
      List.flatMap_congr fun c hc => hchild c ((made_perm_children e).subset hc)
    rw [outOfRange_eq, filter_nodes_eq, hmade]
    cases e with
    | call mark callee args =>
      refine congrArg _ ?_
      rw [made, Expr.children, List.flatMap_append, List.flatMap_cons]
      by_cases hcallee : HoldsOutOfRange callee
      · have hargs : args.flatMap (fun c => c.nodes.filter isOutOfRange) = [] :=
          List.flatMap_eq_nil_iff.2 fun arg harg => filter_nodes_eq_nil
            (h mark callee args (Expr.self_mem_nodes _) hcallee arg harg)
        simp [hargs]
      · simp [filter_nodes_eq_nil hcallee]
    | _ => rfl

theorem toNode_eq_error_iff {e : SourceExpr} {f : Fault} :
    e.toNode = .error f ↔ ∃ n rest, e.outOfRange = n :: rest ∧ f = n.rangeFault := by
  rw [← faultOf?_eq_some_iff, faultOf?_toNode, firstFault, Option.map_eq_some_iff]
  simp only [List.head?_eq_some_iff, eq_comm (a := f), exists_and_right]

theorem exists_of_toNode_eq_error {e : SourceExpr} {f : Fault} (h : e.toNode = .error f) :
    ∃ n ∈ e.nodes, isOutOfRange n = true ∧ f = rangeFault n := by
  obtain ⟨n, rest, heq, rfl⟩ := toNode_eq_error_iff.1 h
  obtain ⟨hn, hrange⟩ := mem_outOfRange_iff.1 (heq ▸ List.mem_cons_self)
  exact ⟨n, hn, hrange, rfl⟩

theorem exists_toNode_eq_error_iff {e : SourceExpr} :
    (∃ f, e.toNode = .error f) ↔ e.HoldsOutOfRange := by
  constructor
  · rintro ⟨f, hf⟩
    obtain ⟨n, hn, hrange, -⟩ := exists_of_toNode_eq_error hf
    exact ⟨n, hn, hrange⟩
  · rintro ⟨n, hn, hrange⟩
    have hmem : n ∈ e.outOfRange := mem_outOfRange_iff.2 ⟨hn, hrange⟩
    obtain ⟨m, rest, heq⟩ := List.exists_cons_of_ne_nil (List.ne_nil_of_mem hmem)
    exact ⟨rangeFault m, toNode_eq_error_iff.2 ⟨m, rest, heq, rfl⟩⟩

/-- Then the first literal out of range is the leftmost one. -/
theorem CallsAreOneSided.start_le {e n : SourceExpr} {rest : List SourceExpr}
    (h : e.CallsAreOneSided) (hnests : ∀ m : SourceExpr, m ∈ e.nodes → m.Nests)
    (heq : e.outOfRange = n :: rest) {m : SourceExpr} (hm : m ∈ e.nodes)
    (hrange : m.isOutOfRange = true) : n.span.start ≤ m.span.start := by
  have hordered : e.outOfRange.Pairwise fun n m : SourceExpr => n.span.start ≤ m.span.start := by
    rw [h.outOfRange_eq_filter]
    exact (nodes_pairwise_start hnests).filter _
  have hmem : m ∈ e.outOfRange := mem_outOfRange_iff.2 ⟨hm, hrange⟩
  rw [heq] at hordered hmem
  rcases List.mem_cons.1 hmem with rfl | hm
  · exact Nat.le_refl _
  · exact (List.pairwise_cons.1 hordered).1 m hm

end SourceExpr

open Grammar SigilExpr.Parser

/-- The tree of an expression that has been read is made unless a literal of it is out of range.
Otherwise the fault is located at the first such literal in the order in which the tree is made,
with all parentheses around it that group. This literal is the leftmost one, if no call has literals
out of range both in what is called and in its arguments. -/
theorem literals_out_of_range_fail {limit : Nat} {source : List Char} {e : SourceExpr}
    (h : SourceExpr.ofText limit source = .ok e) :
    ((∃ f, e.toNode = .error f) ↔ e.HoldsOutOfRange) ∧
    e.outOfRange.Perm (e.nodes.filter SourceExpr.isOutOfRange) ∧
    ∀ f, e.toNode = .error f →
      ∃ (n : SourceExpr) (rest : List SourceExpr), e.outOfRange = n :: rest ∧ f = n.rangeFault ∧
        (∃ before row after, Token.Row 0 source [] (before ++ (row ++ after)) ∧
          Phrase limit .expression row n ∧
          ¬ Enclosed (before.map Token.lexeme) (after.map Token.lexeme) ∧
          n.span = Token.cover row ∧ (f.location source).offset = n.span.start) ∧
        (e.CallsAreOneSided → ∀ m : SourceExpr, m ∈ e.nodes → m.isOutOfRange = true →
          n.span.start ≤ m.span.start) := by
  refine ⟨SourceExpr.exists_toNode_eq_error_iff, e.outOfRange_perm, ?_⟩
  intro f hf
  obtain ⟨n, rest, heq, rfl⟩ := SourceExpr.toNode_eq_error_iff.1 hf
  obtain ⟨hn, -⟩ := SourceExpr.mem_outOfRange_iff.1 (heq ▸ List.mem_cons_self)
  refine ⟨n, rest, heq, rfl, ?_, ?_⟩
  · obtain ⟨ts, hrow, he, -⟩ := SourceExpr.ofText_eq_ok_iff.1 h
    obtain ⟨before, row, after, rfl, hphrase, hplace⟩ := he.exists_place n hn
    obtain ⟨mid, -, hstretch⟩ := SourceExpr.exists_stretch_of_ofText h n hn
    exact ⟨before, row, after, hrow, hphrase, hplace, hphrase.span_eq,
      Nat.min_eq_left hstretch.isBoundary_start.le_byteLength⟩
  · intro hcalls m hm hrange
    exact hcalls.start_le (SourceExpr.nests_of_ofText h) heq hm hrange

/-- Both arguments of a call are out of range, and the first stands in parentheses. -/
theorem literals_out_of_range_fail_sample :
    ∃ (e : SourceExpr) (f : Fault), SourceExpr.ofText 3 "$f((1e999), 2e999)".toList = .ok e ∧
      e.CallsAreOneSided ∧ e.HoldsOutOfRange ∧ e.toNode = .error f ∧
      (f.location "$f((1e999), 2e999)".toList).offset = 3 ∧
      ∀ m : SourceExpr, m ∈ e.nodes → m.isOutOfRange = true → 3 ≤ m.span.start := by
  let n : SourceExpr := .number ⟨⟨3, 10⟩, 1⟩ (.infinite false)
  let m : SourceExpr := .number ⟨⟨12, 17⟩, 1⟩ (.infinite false)
  let e : SourceExpr := .call ⟨⟨0, 18⟩, 2⟩ (.ident ⟨⟨0, 2⟩, 1⟩ "$f") [n, m]
  have he : SourceExpr.ofText 3 "$f((1e999), 2e999)".toList = .ok e := by rfl
  have hf : e.toNode = .error n.rangeFault := rfl
  have hcalls : e.CallsAreOneSided := by
    intro mark callee args hcall hcallee
    simp only [e, n, m, Expr.nodes, Expr.nodesAll, List.cons_append, List.nil_append,
      List.mem_cons, Expr.call.injEq, reduceCtorEq, List.not_mem_nil, or_false] at hcall
    obtain ⟨-, rfl, -⟩ := hcall
    simp [SourceExpr.HoldsOutOfRange, Expr.nodes, SourceExpr.isOutOfRange] at hcallee
  obtain ⟨hfails, -, hfirst⟩ := literals_out_of_range_fail he
  obtain ⟨n', rest, heq, -, ⟨_, _, _, -, -, -, -, hoffset⟩, hleftmost⟩ := hfirst _ hf
  obtain rfl : n = n' := (List.cons.inj heq).1
  exact ⟨e, n.rangeFault, he, hcalls, hfails.1 ⟨_, hf⟩, hf, hoffset, hleftmost hcalls⟩

/-- What is called begins before its arguments, but the fault is that of the argument. -/
theorem argument_out_of_range_comes_first :
    ∃ (e : SourceExpr) (f : Fault) (n : SourceExpr),
      SourceExpr.ofText 2 "1e999(2e999)".toList = .ok e ∧ e.toNode = .error f ∧
      n ∈ e.nodes ∧ n.isOutOfRange = true ∧ n.span.start = 0 ∧
      (f.location "1e999(2e999)".toList).offset = 6 := by
  let n : SourceExpr := .number ⟨⟨0, 5⟩, 1⟩ (.infinite false)
  let m : SourceExpr := .number ⟨⟨6, 11⟩, 1⟩ (.infinite false)
  let e : SourceExpr := .call ⟨⟨0, 12⟩, 2⟩ n [m]
  have he : SourceExpr.ofText 2 "1e999(2e999)".toList = .ok e := by rfl
  have hn : n ∈ e.nodes := by simp [e, Expr.nodes, n]
  exact ⟨e, m.rangeFault, n, he, rfl, hn, rfl, rfl, by decide⟩

end SigilExpr
