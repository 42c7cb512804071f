import SigilExpr.Proofs.Engine.Compile
import SigilExpr.Proofs.Eval.Exchanges
import SigilExpr.Proofs.Node.Lowering
import SigilExpr.Proofs.Syntax.Acceptance
import SigilExpr.Proofs.Syntax.Nesting
import SigilExpr.Proofs.Syntax.Words

/-!
# What is refused

The parser refuses the forms that the language does not have, and the check of an expression the
words that are read only to be refused. Operators on values rely on both: they do have cases for
the refused operators, but nothing that compiles comes to them.

The check reports the first node that is refused, and no refused node begins further to the left.
Where it begins does NOT tell which node it is: `_ in x` and the `_` in it are both refused and begin
at the same byte, and the rule is that of the operator, which comes first.
-/

set_option autoImplicit false

namespace SigilExpr

open Grammar

namespace Expr

variable {Note : Type}

/-- The words that are refused wherever they are not the name of a property. -/
def refusedWords : List String := [reservedName, "super", "typeof", "void", "delete"]

/-- Whether the root is an operator between two operands that is spelled as a word. -/
def isWordOperation : Expr Note → Bool
  | .binary _ .isIn _ _ | .binary _ .instanceOf _ _ => true
  | _ => false

theorem isWordOperation_eq_false_iff {e : Expr Note} :
    e.isWordOperation = false ↔
      ∀ note l r, e ≠ .binary note .isIn l r ∧ e ≠ .binary note .instanceOf l r := by
  cases e with
  | binary note op l r => cases op <;> simp [isWordOperation]
  | _ => simp [isWordOperation]

theorem restriction?_eq_none_iff {e : Expr Note}
    (h : ∀ note name, e = .ident note name → name ∉ reservedWords) :
    e.restriction? = none ↔
      (∀ word ∈ refusedWords, e.word? ≠ some (.ident word)) ∧ e.isWordOperation = false := by
  cases e with
  | ident note name =>
    have hname := h note name rfl
    simp only [reservedWords, List.mem_cons, List.not_mem_nil, or_false, not_or] at hname
    simp only [restriction?]
    split_ifs with hr hs
    · simp [word?, refusedWords, hr]
    · simp [word?, refusedWords, hs]
    · simp [word?, isWordOperation, refusedWords, hname, hr, hs]
  | unary note op e =>
    cases op <;> simp [restriction?, word?, isWordOperation, refusedWords, UnaryOp.isAllowed,
      UnaryOp.isWord, UnaryOp.lexeme]
  | binary note op l r =>
    cases op <;> simp [restriction?, word?, isWordOperation, BinaryOp.isAllowed]
  | _ => simp [restriction?, word?, isWordOperation]

end Expr

namespace SourceExpr

theorem checkAllowed_eq_ok_iff {e : SourceExpr} :
    e.checkAllowed = .ok () ↔ ∀ n ∈ e.nodes, n.restriction? = none := by
  unfold checkAllowed
  split
  · next fault hfault =>
    obtain ⟨n, hn, h⟩ := List.exists_of_findSome?_eq_some hfault
    refine iff_of_false (by simp) ?_
    intro hall
    rw [hall n hn] at h
    cases h
  · next hnone =>
    refine iff_of_true rfl ?_
    intro n hn
    simpa using List.findSome?_eq_none_iff.1 hnone n hn

/-- What is refused is the first node with a restriction. -/
theorem checkAllowed_eq_error_iff {e : SourceExpr} {f : Fault} :
    e.checkAllowed = .error f ↔ ∃ (before : List SourceExpr) (n : SourceExpr)
      (after : List SourceExpr) (r : Restriction), e.nodes = before ++ n :: after ∧
      (∀ m ∈ before, m.restriction? = none) ∧ n.restriction? = some r ∧
      f = .restricted r n.span.start := by
  have hviolation : e.checkAllowed = .error f ↔ e.violation? = some f := by
    unfold checkAllowed
    cases e.violation? <;> simp
  rw [hviolation, violation?, List.findSome?_eq_some_iff]
  simp only [Option.map_eq_some_iff, Option.map_eq_none_iff]
  constructor
  · rintro ⟨before, n, after, heq, ⟨r, hr, rfl⟩, hbefore⟩
    exact ⟨before, n, after, r, heq, hbefore, hr, rfl⟩
  · rintro ⟨before, n, after, r, heq, hbefore, hr, rfl⟩
    exact ⟨before, n, after, heq, ⟨r, hr, rfl⟩, hbefore⟩

end SourceExpr

section

variable {tokens : List Token} {limit : Nat} {e : SourceExpr}

theorem standsFree_iff_of_parse {name : String} (hend : Token.Ended tokens)
    (h : parse limit tokens = .ok e) (hname : (Lexeme.ident name).connective? = none) :
    StandsFree (.ident name) (tokens.map Token.lexeme) ↔
      ∃ n ∈ e.nodes, n.word? = some (.ident name) := by
  have hderives := derives_of_parse hend h
  obtain ⟨ts, t, rfl, ht, -, hbody⟩ := hend.exists_body
  rw [hbody] at hderives
  rw [List.map_append, List.map_singleton, ht, standsFree_concat (by simp) (by simp),
    hderives.standsFree_iff hname, Expr.bare, Expr.nodes_map]
  simp [Expr.word?_map]

theorem unreserved_of_parse (hend : Token.Ended tokens) (h : parse limit tokens = .ok e) :
    ∀ n ∈ e.nodes, ∀ mark name, n = .ident mark name → name ∉ reservedWords := by
  rintro n hn mark name rfl
  have hbare : Expr.bare (.ident mark name : SourceExpr) ∈ e.bare.nodes := by
    rw [Expr.bare, Expr.bare, Expr.nodes_map]
    exact List.mem_map_of_mem hn
  exact (derives_of_parse hend h).unreserved _ hbare name rfl

theorem checkAllowed_iff_of_parse (hend : Token.Ended tokens) (h : parse limit tokens = .ok e) :
    e.checkAllowed = .ok () ↔
      (∀ word ∈ Expr.refusedWords, ¬ StandsFree (.ident word) (tokens.map Token.lexeme)) ∧
        ∀ n ∈ e.nodes, n.isWordOperation = false := by
  have hnode : ∀ n ∈ e.nodes, (n.restriction? = none ↔
      (∀ word ∈ Expr.refusedWords, n.word? ≠ some (.ident word)) ∧ n.isWordOperation = false) :=
    fun n hn => Expr.restriction?_eq_none_iff (unreserved_of_parse hend h n hn)
  have hword : ∀ word ∈ Expr.refusedWords, (Lexeme.ident word).connective? = none := by decide
  rw [SourceExpr.checkAllowed_eq_ok_iff, forall₂_congr hnode, forall₂_and]
  refine and_congr_left fun _ => ?_
  constructor
  · intro hall word hw hfree
    obtain ⟨n, hn, heq⟩ := (standsFree_iff_of_parse hend h (hword word hw)).1 hfree
    exact hall n hn word hw heq
  · intro hall n hn word hw heq
    exact hall word hw ((standsFree_iff_of_parse hend h (hword word hw)).2 ⟨n, hn, heq⟩)

theorem not_foreign_of_parse (hend : Token.Ended tokens) (h : parse limit tokens = .ok e) :
    ∀ t ∈ tokens, ¬ Foreign t.lexeme := by
  have hderives := derives_of_parse hend h
  obtain ⟨ts, t, rfl, ht, -, hbody⟩ := hend.exists_body
  rw [hbody] at hderives
  intro u hu
  rcases List.mem_append.1 hu with hu | hu
  · exact (hderives.terminal _ (List.mem_map_of_mem hu)).not_foreign
  · obtain rfl := List.mem_singleton.1 hu
    intro hforeign
    rw [ht] at hforeign
    cases hforeign

theorem new_not_standsFree_of_parse (hend : Token.Ended tokens) (h : parse limit tokens = .ok e) :
    ¬ StandsFree (.ident "new") (tokens.map Token.lexeme) := by
  have hderives := derives_of_parse hend h
  obtain ⟨ts, t, rfl, ht, -, hbody⟩ := hend.exists_body
  rw [hbody] at hderives
  rw [List.map_append, List.map_singleton, ht, standsFree_concat (by simp) (by simp)]
  exact hderives.new_not_standsFree

end

/-- Whether an operator at the root is one that values have. -/
def Node.operatorIsAllowed : Node → Bool
  | .unary op _ => op.isAllowed
  | .binary op _ _ => op.isAllowed
  | _ => true

namespace SourceExpr

/-- What an expression without refused nodes becomes has no refused operators. -/
theorem Lowers.operatorIsAllowed {e : SourceExpr} {n : Node} (h : Lowers e n)
    (hall : ∀ m ∈ e.nodes, m.restriction? = none) :
    ∀ k ∈ n.nodes, k.operatorIsAllowed = true := by
  intro k hk
  obtain ⟨d, hd, hlowers⟩ := exists_of_mem_nodes hk h
  have hnone := hall d hd
  cases hlowers with
  | unary op _ | binary op _ _ =>
    simpa [Expr.restriction?, Node.operatorIsAllowed] using hnone
  | ident name =>
    unfold Node.ofName
    split <;> rfl
  | _ => rfl

end SourceExpr

/-- The errors that a run ends in are of a kind that errors over values are of. -/
theorem Run.closed_of_errors {context : Context} {kind : RuntimeError → Prop}
    (hkind : ∀ error, error.isOverValues = true → kind error) :
    Run.Closed fun r => ∀ es error, r.Plays context es (.error error) → kind error where
  overValues hx es error h := by
    cases h
    exact hkind error (hx rfl)
  bind hr hf es error h := by
    rcases h.of_bind with ⟨error', h, heq⟩ | ⟨a, before, after, -, -, h⟩
    · cases heq
      exact hr es error h
    · exact hf a after error h

/-- If all operators in a tree are allowed, its run ends in no error of an operator that is not
supported, however it plays out. -/
theorem Node.plays_ne_unsupported {n : Node} (h : ∀ m ∈ n.nodes, m.operatorIsAllowed = true)
    (context : Context) (spelling : String) {es : List Exchange} {error : RuntimeError}
    (hplays : n.run.Plays context es (.error error)) :
    error ≠ .type (.unsupported spelling) := by
  have hclosed : Run.Closed fun r => ∀ es error, r.Plays context es (.error error) →
      error ≠ .type (.unsupported spelling) := by
    apply Run.closed_of_errors
    rintro _ hover rfl
    cases hover
  refine run_has hclosed n ?_ es error hplays
  intro m hm
  have hop := h m hm
  cases m with
  | contextRoot | contextRead name =>
    rintro es error (_ | ⟨⟨⟩⟩ | ⟨⟨⟩⟩)
  | helper name args =>
    rintro vs es error (_ | _ | _ | ⟨reply, hend⟩)
    rcases reply with (_ | cause) | v <;> cases hend <;> simp
  | unary op e => exact fun v => hclosed.overValues (v.failsOverValues_applyUnary hop)
  | binary op l r => exact fun v w => hclosed.overValues (v.failsOverValues_applyBinary hop w)
  | _ => trivial

namespace Compiled

variable {registry : Registry} {limits : Limits} {source : String} {c : Compiled}

theorem operatorIsAllowed_of_ofSource (h : ofSource registry limits source = .ok c) :
    ∀ n ∈ c.root.nodes, n.operatorIsAllowed = true := by
  obtain ⟨e, -, hallowed, -, hnode, -⟩ := parts_eq_ok_iff.1 (ofSource_eq_ok_iff.1 h).1
  exact (SourceExpr.lowers_of_toNode e hnode).operatorIsAllowed
    (SourceExpr.checkAllowed_eq_ok_iff.1 hallowed)

theorem run_ne_unsupported (h : ofSource registry limits source = .ok c) (context : Context)
    (w : World) {error : EvaluationError} (herror : (c.run context w).1 = .error error)
    (spelling : String) : error.cause ≠ .type (.unsupported spelling) := by
  have hplays : c.root.run.Plays context _ _ := (c.root.run.performedAs context w).plays
  rw [run] at herror
  split at herror
  · cases herror
  · next cause w' heq =>
    cases herror
    rw [heq] at hplays
    exact Node.plays_ne_unsupported (operatorIsAllowed_of_ofSource h) context spelling hplays

end Compiled

/-- Once a source can be read, it is refused exactly for a word that stands free or for an operator
between two operands that is a word; what the language has no form for is not read at all. So no
refused operator reaches a compiled tree, and no run of one fails over an operator that is not
supported. -/
theorem restrictions_are_exact (source : String) :
    (∀ tokens limit e, Token.ofSource source.toList = .ok tokens → parse limit tokens = .ok e →
      (e.checkAllowed = .ok () ↔
        (∀ word ∈ ["_", "super", "typeof", "void", "delete"],
          ¬ StandsFree (.ident word) (tokens.map Token.lexeme)) ∧
        ∀ n ∈ e.nodes, ∀ mark l r,
          n ≠ .binary mark .isIn l r ∧ n ≠ .binary mark .instanceOf l r) ∧
      (∀ t ∈ tokens, ¬ Foreign t.lexeme) ∧
      ¬ StandsFree (.ident "new") (tokens.map Token.lexeme)) ∧
    ∀ registry limits c, Compiled.ofSource registry limits source = .ok c →
      (∀ n ∈ c.root.nodes, n.operatorIsAllowed = true) ∧
      (∀ context es error, c.root.run.Plays context es (.error error) →
        ∀ spelling, error ≠ .type (.unsupported spelling)) ∧
      ∀ context w error, (c.run context w).1 = .error error →
        ∀ spelling, error.cause ≠ .type (.unsupported spelling) := by
  constructor
  · intro tokens limit e hs he
    have hend := Token.ended_of_ofSource hs
    refine ⟨?_, not_foreign_of_parse hend he, new_not_standsFree_of_parse hend he⟩
    rw [checkAllowed_iff_of_parse hend he]
    simp only [Expr.isWordOperation_eq_false_iff]
    rfl
  · intro registry limits c h
    have hallowed := Compiled.operatorIsAllowed_of_ofSource h
    refine ⟨hallowed, ?_, ?_⟩
    · intro context es error hplays spelling
      exact Node.plays_ne_unsupported hallowed context spelling hplays
    · intro context w error herror
      exact Compiled.run_ne_unsupported h context w herror

/-- A word after a dot is the name of a property, and the same word before an operand is refused. -/
theorem restrictions_are_exact_sample :
    ∃ tokens e words f c, Token.ofSource "-x.typeof".toList = .ok tokens ∧
      parse 8 tokens = .ok e ∧ e.checkAllowed = .ok () ∧
      ¬ StandsFree (.ident "typeof") (tokens.map Token.lexeme) ∧
      Token.ofSource "typeof x".toList = .ok words ∧ parse 8 words = .ok f ∧
      f.checkAllowed ≠ .ok () ∧
      Compiled.ofSource .empty ⟨16, 8⟩ "-x.typeof" = .ok c ∧
      ∀ context w error, (c.run context w).1 = .error error →
        ∀ spelling, error.cause ≠ .type (.unsupported spelling) := by
  let tokens : List Token :=
    [⟨.minus, ⟨0, 1⟩⟩, ⟨.ident "x", ⟨1, 2⟩⟩, ⟨.dot, ⟨2, 3⟩⟩, ⟨.ident "typeof", ⟨3, 9⟩⟩,
      ⟨.eof, ⟨9, 9⟩⟩]
  let e : SourceExpr :=
    .unary ⟨⟨0, 9⟩, 3⟩ .neg (.member ⟨⟨1, 9⟩, 2⟩ (.ident ⟨⟨1, 2⟩, 1⟩ "x") "typeof")
  let words : List Token := [⟨.ident "typeof", ⟨0, 6⟩⟩, ⟨.ident "x", ⟨7, 8⟩⟩, ⟨.eof, ⟨8, 8⟩⟩]
  let f : SourceExpr := .unary ⟨⟨0, 8⟩, 2⟩ .typeof (.ident ⟨⟨7, 8⟩, 1⟩ "x")
  let c : Compiled := ⟨"-x.typeof", .unary .neg (.member (.contextRead "x") "typeof"), []⟩
  have hs : Token.ofSource "-x.typeof".toList = .ok tokens := rfl
  have he : parse 8 tokens = .ok e := rfl
  have hallowed : e.checkAllowed = .ok () := rfl
  have hs' : Token.ofSource "typeof x".toList = .ok words := rfl
  have hf : parse 8 words = .ok f := rfl
  have hc : Compiled.ofSource .empty ⟨16, 8⟩ "-x.typeof" = .ok c := rfl
  obtain ⟨hread, hcompiled⟩ := restrictions_are_exact "-x.typeof"
  obtain ⟨hread', -⟩ := restrictions_are_exact "typeof x"
  have hproperty := ((hread tokens 8 e hs he).1.1 hallowed).1 "typeof" (by decide)
  have hword : f.checkAllowed ≠ .ok () := by
    intro h
    exact ((hread' words 8 f hs' hf).1.1 h).1 "typeof" (by decide) ⟨[], _, rfl, by simp⟩
  exact ⟨tokens, e, words, f, c, hs, he, hallowed, hproperty, hs', hf, hword, hc,
    (hcompiled .empty ⟨16, 8⟩ c hc).2.2⟩

/-- The nodes of what is read begin in the order in which they are checked. So when the check fails,
the rule is that of the first node that violates one, and no node that violates one begins further
to the left. -/
theorem restriction_is_leftmost {limit : Nat} {source : List Char} {e : SourceExpr}
    (h : SourceExpr.ofText limit source = .ok e) :
    (e.nodes.Pairwise fun n m : SourceExpr => n.span.start ≤ m.span.start) ∧
    ∀ f, e.checkAllowed = .error f →
      ∃ (before : List SourceExpr) (n : SourceExpr) (after : List SourceExpr) (r : Restriction),
        e.nodes = before ++ n :: after ∧ (∀ m ∈ before, m.restriction? = none) ∧
        n.restriction? = some r ∧ f = .restricted r n.span.start ∧
        (f.location source).offset = n.span.start ∧
        ∀ m : SourceExpr, m ∈ e.nodes → m.restriction? ≠ none → n.span.start ≤ m.span.start := by
  have hordered := SourceExpr.nodes_pairwise_start (SourceExpr.nests_of_ofText h)
  refine ⟨hordered, ?_⟩
  intro f hf
  obtain ⟨before, n, after, r, heq, hbefore, hr, rfl⟩ := SourceExpr.checkAllowed_eq_error_iff.1 hf
  refine ⟨before, n, after, r, heq, hbefore, hr, rfl, ?_, ?_⟩
  · obtain ⟨mid, -, hstretch⟩ := SourceExpr.exists_stretch_of_ofText h n (by simp [heq])
    exact Nat.min_eq_left hstretch.isBoundary_start.le_byteLength
  · intro m hm hrestricted
    rw [heq] at hm hordered
    obtain ⟨-, htail, -⟩ := List.pairwise_append.1 hordered
    rcases List.mem_append.1 hm with hm | hm
    · exact absurd (hbefore m hm) hrestricted
    · rcases List.mem_cons.1 hm with rfl | hm
      · exact Nat.le_refl _
      · exact (List.pairwise_cons.1 htail).1 m hm

/-- Three refused nodes, of which the first two begin at the parenthesis and behind it. -/
theorem restriction_is_leftmost_sample :
    ∃ (e : SourceExpr) (f : Fault) (n : SourceExpr),
      SourceExpr.ofText 4 "\u3000x + (_ in y) + super".toList = .ok e ∧
      e.checkAllowed = .error f ∧ f = .restricted (.operator "in") 7 ∧ n ∈ e.nodes ∧
      n.restriction? = some .super ∧ (f.location "\u3000x + (_ in y) + super".toList).offset = 7 ∧
      7 ≤ n.span.start := by
  let n : SourceExpr := .ident ⟨⟨18, 23⟩, 1⟩ "super"
  let refused : SourceExpr :=
    .binary ⟨⟨7, 15⟩, 2⟩ .isIn (.ident ⟨⟨8, 9⟩, 1⟩ "_") (.ident ⟨⟨13, 14⟩, 1⟩ "y")
  let e : SourceExpr := .binary ⟨⟨3, 23⟩, 4⟩ .add
    (.binary ⟨⟨3, 15⟩, 3⟩ .add (.ident ⟨⟨3, 4⟩, 1⟩ "x") refused) n
  have he : SourceExpr.ofText 4 "\u3000x + (_ in y) + super".toList = .ok e := rfl
  have hf : e.checkAllowed = .error (.restricted (.operator "in") 7) := rfl
  have hn : n ∈ e.nodes := by simp [e, n, Expr.nodes]
  obtain ⟨-, hleftmost⟩ := restriction_is_leftmost he
  obtain ⟨_, _, _, _, -, -, -, hfault, hoffset, hle⟩ := hleftmost _ hf
  obtain ⟨-, hstart⟩ := Fault.restricted.inj hfault
  rw [← hstart] at hoffset hle
  have hsuper : n.restriction? = some .super := rfl
  exact ⟨e, _, n, he, hf, rfl, hn, hsuper, hoffset, hle n hn (by simp [hsuper])⟩

end SigilExpr
