import Mathlib.Data.List.Forall2
import SigilExpr.Proofs.Engine.Compile
import SigilExpr.Proofs.Eval.ShortCircuit
import SigilExpr.Proofs.Node.Bare
import SigilExpr.Proofs.Syntax.Spans

/-!
# Operands that a logical operator joins

Rows of lexemes that are joined by one logical operator spell a tree that is nested to the left, if
each row is an operand of the operator. What compiles from them runs as what the rows compile to,
one after the other until one fails or decides.
-/

set_option autoImplicit false

namespace SigilExpr

theorem LogicalOp.level_bounds (op : LogicalOp) : 1 ≤ op.level ∧ op.level ≤ 10 := by
  cases op <;> decide

namespace Grammar

variable {op : LogicalOp} {row : List Lexeme} {rows : List (List Lexeme)}

/-- The rows with the lexeme of the operator between them. -/
def joined (op : LogicalOp) (rows : List (List Lexeme)) : List Lexeme :=
  [(Connective.logical op).lexeme].intercalate rows

/-- A row that may be an operand: in parentheses, or with operators that bind tighter. -/
def IsOperand (op : LogicalOp) (row : List Lexeme) : Prop :=
  ∃ t, Derives (.level (op.level + 1)) row t

/-- The rows are operands, and there is one at least. -/
def AreOperands (op : LogicalOp) (rows : List (List Lexeme)) : Prop :=
  rows ≠ [] ∧ ∀ row ∈ rows, IsOperand op row

/-- Each row compiles to just one tree, and the whole tree runs as these do in turn, up to the first
that fails or decides. -/
def RunsAs (op : LogicalOp) (rows : List (List Lexeme)) (n : Node) : Prop :=
  ∃ ns, (∀ ms, List.Forall₂ CompilesTo rows ms ↔ ms = ns) ∧
    ∀ context w, StopsEarly context op (ns.map Node.run) w (n.run.exchanges context w)
      (n.run.perform context w)

theorem joined_cons (op : LogicalOp) (row : List Lexeme) (rows : List (List Lexeme)) :
    joined op (row :: rows) = row ++ rows.flatMap ((Connective.logical op).lexeme :: ·) := by
  induction rows generalizing row with
  | nil => simp [joined]
  | cons next rows ih =>
    rw [joined, List.intercalate_cons_cons, ← joined, ih]
    simp

/-- Operands are joined from the left. -/
theorem Derives.foldl_logical {ls : List Lexeme} {t : Expr Unit} {tree : List Lexeme → Expr Unit}
    (ht : Derives (.level op.level) ls t)
    (htree : ∀ row ∈ rows, Derives (.level (op.level + 1)) row (tree row)) :
    Derives (.level op.level) (ls ++ rows.flatMap ((Connective.logical op).lexeme :: ·))
      ((rows.map tree).foldl (.logical () op) t) := by
  induction rows generalizing ls t with
  | nil => simpa using ht
  | cons row rows ih =>
    obtain ⟨hrow, hrows⟩ := List.forall_mem_cons.1 htree
    have hjoin := Derives.connect (.logical op) (mem_operatorsAt_iff.2 rfl) ht hrow
    simpa [join] using ih hjoin hrows

theorem derives_joined {tree : List Lexeme → Expr Unit}
    (htree : ∀ row' ∈ row :: rows, Derives (.level (op.level + 1)) row' (tree row')) :
    Derives (.level op.level) (joined op (row :: rows))
      ((rows.map tree).foldl (.logical () op) (tree row)) := by
  obtain ⟨hrow, hrows⟩ := List.forall_mem_cons.1 htree
  have hlevel : op.level ≤ 10 := op.level_bounds.2
  rw [joined_cons]
  exact Derives.foldl_logical (.tighter hlevel hrow) hrows

end Grammar

namespace Expr

/-- A logical operator leaves its place to the trees of its operands. -/
theorem Becomes.of_logical {op : LogicalOp} {t u : Expr Unit} {n : Node}
    (h : (logical () op t u).Becomes n) :
    ∃ p q, t.Becomes p ∧ u.Becomes q ∧ n = .logical op p q := by
  obtain ⟨e, hbare, hn⟩ := h
  cases e with
  | logical mark op' l r =>
    cases hbare
    simp only [SourceExpr.toNode, bind_eq_ok_iff] at hn
    obtain ⟨p, hp, q, hq, hn⟩ := hn
    exact ⟨p, q, ⟨l, rfl, hp⟩, ⟨r, rfl, hq⟩, (Except.ok.inj hn).symm⟩
  | _ => cases hbare

theorem Becomes.of_foldl_logical {op : LogicalOp} {t : Expr Unit} {ts : List (Expr Unit)} {n : Node}
    (h : (ts.foldl (logical () op) t).Becomes n) :
    ∃ m ms, List.Forall₂ Becomes (t :: ts) (m :: ms) ∧ n = ms.foldl (.logical op) m := by
  induction ts generalizing t with
  | nil => exact ⟨n, [], .cons h .nil, rfl⟩
  | cons u ts ih =>
    obtain ⟨_, ms, hall, rfl⟩ := ih h
    obtain ⟨hjoin, hms⟩ := List.forall₂_cons.1 hall
    obtain ⟨p, q, hp, hq, rfl⟩ := hjoin.of_logical
    exact ⟨p, q :: ms, .cons hp (.cons hq hms), rfl⟩

end Expr

namespace Grammar.AreOperands

variable {op : LogicalOp} {row : List Lexeme} {rows : List (List Lexeme)}

theorem exists_tree (h : AreOperands op rows) :
    ∃ tree : List Lexeme → Expr Unit,
      ∀ row ∈ rows, Derives (.level (op.level + 1)) row (tree row) := by
  have : Nonempty (Expr Unit) := ⟨.null ()⟩
  obtain ⟨-, hrows⟩ := h
  choose! tree htree using hrows
  exact ⟨tree, htree⟩

theorem exists_derives (h : AreOperands op rows) :
    ∃ t, Derives (.level op.level) (joined op rows) t := by
  obtain ⟨tree, htree⟩ := h.exists_tree
  obtain ⟨row, rest, rfl⟩ := List.exists_cons_of_ne_nil h.1
  exact ⟨_, derives_joined htree⟩

theorem runsAs {n : Node} (h : AreOperands op rows) (hn : CompilesTo (joined op rows) n) :
    RunsAs op rows n := by
  obtain ⟨tree, htree⟩ := h.exists_tree
  obtain ⟨row, rest, rfl⟩ := List.exists_cons_of_ne_nil h.1
  obtain ⟨hlow, hhigh⟩ := op.level_bounds
  have hwhole : Derives .expression (joined op (row :: rest)) _ :=
    .test ((derives_joined htree).loosen hlow (by omega))
  have hparts : ∀ row' ∈ row :: rest, Derives .expression row' (tree row') :=
    fun row' hrow => .test ((htree row' hrow).loosen (by omega) (by omega))
  obtain ⟨t, ht, hbecomes⟩ := hn
  obtain rfl := ht.unique hwhole
  obtain ⟨m, ms, hall, rfl⟩ := hbecomes.of_foldl_logical
  rw [← List.map_cons, List.forall₂_map_left_iff] at hall
  have hcompile : List.Forall₂ CompilesTo (row :: rest) (m :: ms) :=
    ((List.forall₂_and_left _ _).2 ⟨hparts, hall⟩).imp fun row' _ h' => ⟨tree row', h'.1, h'.2⟩
  have hunique : Relator.RightUnique CompilesTo := fun _ _ _ hp hq => hp.unique hq
  refine ⟨m :: ms, ?_, Node.foldl_logical_stopsEarly op m ms⟩
  intro ns
  constructor
  · intro hns
    exact List.right_unique_forall₂' hunique hns hcompile
  · rintro rfl
    exact hcompile

/-- A row of operands of `&&` is one operand of `||`. -/
theorem isOperand (h : AreOperands .and rows) : IsOperand .or (joined .and rows) :=
  h.exists_derives

end Grammar.AreOperands

open Grammar

namespace Compiled

variable {registry : Registry} {limits : Limits} {source : String} {c : Compiled}
  {tokens : List Token}

theorem compilesTo_of_ofSource (h : ofSource registry limits source = .ok c)
    (htokens : Token.ofSource source.toList = .ok tokens) :
    CompilesTo (beforeEnd tokens) c.root := by
  obtain ⟨e, he, -, -, hnode, -⟩ := parts_eq_ok_iff.1 (ofSource_eq_ok_iff.1 h).1
  obtain ⟨-, htext⟩ := SourceExpr.ofSource_eq_ok_iff.1 he
  obtain ⟨_, hread, hparse⟩ := bind_eq_ok_iff.1 htext
  obtain rfl := Except.ok.inj (htokens.symm.trans hread)
  exact ⟨e.bare, derives_of_parse (Token.ended_of_ofSource htokens) hparse, e, rfl, hnode⟩

/-- A run of a compiled expression is that of its tree, with the source added to an error. -/
theorem run_eq (c : Compiled) (context : Context) (w : World) :
    c.run context w =
      ((c.root.run.perform context w).1.mapError fun cause => ⟨cause, c.source, c.transformed⟩,
        (c.root.run.perform context w).2) := by
  rw [run]
  split
  all_goals
    next h => rw [h]; rfl

end Compiled

/-- What compiles from operands that a logical operator joins runs as the operands do, one after the
other until one fails, or is truthy for `||` and falsy for `&&`. Where groups of operands of `&&`
are joined by `||`, each group is one operand, and it runs in the same way itself. -/
theorem logical_operands_stop_early {registry : Registry} {limits : Limits} {source : String}
    {c : Compiled} {tokens : List Token} (h : Compiled.ofSource registry limits source = .ok c)
    (htokens : Token.ofSource source.toList = .ok tokens) :
    (∀ op rows, AreOperands op rows → beforeEnd tokens = joined op rows →
      RunsAs op rows c.root) ∧
    (∀ groups : List (List (List Lexeme)), groups ≠ [] →
      (∀ group ∈ groups, AreOperands .and group) →
      beforeEnd tokens = joined .or (groups.map (joined .and)) →
      RunsAs .or (groups.map (joined .and)) c.root ∧
        ∀ group ∈ groups, ∀ n, CompilesTo (joined .and group) n → RunsAs .and group n) ∧
    ∀ context w, c.run context w =
      ((c.root.run.perform context w).1.mapError fun cause => ⟨cause, c.source, c.transformed⟩,
        (c.root.run.perform context w).2) := by
  have hroot : CompilesTo (beforeEnd tokens) c.root := Compiled.compilesTo_of_ofSource h htokens
  refine ⟨?_, ?_, c.run_eq⟩
  · intro op rows hrows heq
    exact hrows.runsAs (heq ▸ hroot)
  · intro groups hne hgroups heq
    have hrows : AreOperands .or (groups.map (joined .and)) :=
      ⟨by simpa using hne, by simpa using fun group hgroup => (hgroups group hgroup).isOperand⟩
    exact ⟨hrows.runsAs (heq ▸ hroot), fun group hgroup n hn => (hgroups group hgroup).runsAs hn⟩

/-- The last operand is not read if the group before it has a value that decides. The second one is
not read if the first one is zero. -/
theorem logical_operands_stop_early_sample :
    ∃ (c : Compiled) (tokens : List Token) (n : Node) (context context' : Context),
      Compiled.ofSource .empty ⟨16, 4⟩ "a && b || c" = .ok c ∧
      Token.ofSource "a && b || c".toList = .ok tokens ∧
      beforeEnd tokens =
        joined .or [joined .and [[.ident "a"], [.ident "b"]], joined .and [[.ident "c"]]] ∧
      RunsAs .or [joined .and [[.ident "a"], [.ident "b"]], joined .and [[.ident "c"]]] c.root ∧
      RunsAs .and [[.ident "a"], [.ident "b"]] n ∧
      c.root.run.exchanges context ⟨.empty, []⟩ = [.read "a", .read "b"] ∧
      c.root.run.exchanges context' ⟨.empty, []⟩ = [.read "a", .read "c"] := by
  let e : SourceExpr :=
    .logical ⟨⟨0, 11⟩, 3⟩ .or
      (.logical ⟨⟨0, 6⟩, 2⟩ .and (.ident ⟨⟨0, 1⟩, 1⟩ "a") (.ident ⟨⟨5, 6⟩, 1⟩ "b"))
      (.ident ⟨⟨10, 11⟩, 1⟩ "c")
  let n : Node := .logical .or (.logical .and (.contextRead "a") (.contextRead "b"))
    (.contextRead "c")
  let c : Compiled := ⟨"a && b || c", n, []⟩
  let tokens : List Token :=
    [⟨.ident "a", ⟨0, 1⟩⟩, ⟨.andAnd, ⟨2, 4⟩⟩, ⟨.ident "b", ⟨5, 6⟩⟩, ⟨.orOr, ⟨7, 9⟩⟩,
      ⟨.ident "c", ⟨10, 11⟩⟩, ⟨.eof, ⟨11, 11⟩⟩]
  let groups : List (List (List Lexeme)) := [[[.ident "a"], [.ident "b"]], [[.ident "c"]]]
  let context : Context := .ofEntries [("a", .bool true), ("b", .string "b")]
  let context' : Context := .ofEntries [("a", .int 0), ("b", .bool true)]
  have hread : SourceExpr.ofSource ⟨16, 4⟩ "a && b || c".toList = .ok e := rfl
  have hparts : Compiled.parts .empty ⟨16, 4⟩ "a && b || c".toList = .ok (c.root, c.helpers) :=
    Compiled.parts_eq_ok_iff.2
      ⟨e, hread, rfl, fun name hname => absurd hname List.not_mem_nil, rfl, rfl⟩
  have hc : Compiled.ofSource .empty ⟨16, 4⟩ "a && b || c" = .ok c :=
    Compiled.ofSource_eq_ok_iff.2 ⟨hparts, rfl⟩
  have htokens : Token.ofSource "a && b || c".toList = .ok tokens := rfl
  have hname : ∀ name ∉ reservedWords, IsOperand .and [.ident name] := fun name h =>
    ⟨_, (Derives.operand (.plain (.head (.leaf (.ident name h))))).loosen (by decide) (by decide)⟩
  have hgroups : ∀ group ∈ groups, AreOperands .and group := by
    simp only [groups, AreOperands, List.forall_mem_cons]
    refine ⟨⟨by simp, hname "a" (by decide), hname "b" (by decide), by simp⟩,
      ⟨by simp, hname "c" (by decide), by simp⟩, by simp⟩
  obtain ⟨-, hmixed, -⟩ := logical_operands_stop_early hc htokens
  obtain ⟨hwhole, hgroup⟩ := hmixed groups (by simp [groups]) hgroups rfl
  obtain ⟨m, hm⟩ : ∃ m, CompilesTo (joined .and [[.ident "a"], [.ident "b"]]) m := by
    obtain ⟨ms, hall, -⟩ := hwhole
    cases (hall ms).2 rfl with
    | cons hm _ => exact ⟨_, hm⟩
  exact ⟨c, tokens, m, context, context', hc, htokens, rfl, hwhole,
    hgroup _ List.mem_cons_self m hm, rfl, rfl⟩

end SigilExpr
