import SigilExpr.Proofs.Engine.Restrictions
import SigilExpr.Proofs.Syntax.Spans
import SigilExpr.Proofs.Token.Spelling

/-!
# Two ways to a property of the context

A property of the context may be named after a point or under a key. A name after a point is read
from the context directly, and a context that is no object has nothing to read; a key is looked up in
the context as a value. The two agree on every object. On other values they do NOT: a key reads the
length of an array or a string, and it fails where a value has no properties at all.
-/

set_option autoImplicit false

namespace SigilExpr

open Text Grammar SigilExpr.Parser

namespace RuntimeError

/-- The kinds of errors of an evaluation. -/
inductive Kind where
  | helper
  | missingHelper
  | notAnObject
  | notCallable
  | type
  | arithmetic
deriving DecidableEq

def kind : RuntimeError → Kind
  | .helper _ _ => .helper
  | .missingHelper _ => .missingHelper
  | .notAnObject _ _ => .notAnObject
  | .notCallable _ => .notCallable
  | .type _ => .type
  | .arithmetic _ => .arithmetic

end RuntimeError

/-- Two evaluations come to the same value or fail with errors of one kind. -/
def SameOutcome (x y : Except EvaluationError Value) : Prop :=
  x.mapError (fun error => error.cause.kind) = y.mapError fun error => error.cause.kind

/-- The names of the whole context. -/
def contextNames : List String := ["$", "this"]

/-- The source that names a property after a point. -/
def pointSource (root name : String) : String := root ++ "." ++ name

/-- The source that has a name between quotes for a key. -/
def keySource (root name : String) (quote : Char) : String :=
  root ++ "[" ++ String.ofList (quote :: (name.toList ++ [quote])) ++ "]"

section

variable {root name : String} {quote : Char}

theorem eq_of_mem_contextNames (h : root ∈ contextNames) : root = "$" ∨ root = "this" := by
  simpa [contextNames] using h

theorem isName_of_mem_contextNames (h : root ∈ contextNames) : isName root.toList = true := by
  rcases eq_of_mem_contextNames h with rfl | rfl <;> rfl

theorem leaf_of_mem_contextNames {t : Token} (h : root ∈ contextNames)
    (ht : t.lexeme = .ofName root) {m : Mark} : Leaf m t.lexeme (.ident m root) := by
  rw [ht]
  rcases eq_of_mem_contextNames h with rfl | rfl
  · exact .ident "$" (by decide)
  · exact .ident "this" (by decide)

theorem restriction?_of_mem_contextNames (h : root ∈ contextNames) (m : Mark) :
    (Expr.ident m root).restriction? = none := by
  rcases eq_of_mem_contextNames h with rfl | rfl <;> rfl

theorem refersTo_of_mem_contextNames (h : root ∈ contextNames) (m : Mark) :
    (Expr.ident m root).refersTo .contextRoot = true := by
  rcases eq_of_mem_contextNames h with rfl | rfl <;> rfl

theorem ofName_of_mem_contextNames (h : root ∈ contextNames) : Node.ofName root = .contextRoot := by
  rcases eq_of_mem_contextNames h with rfl | rfl <;> rfl

theorem propertyName_ofName (name : String) : PropertyName (.ofName name) name := by
  unfold Lexeme.ofName
  split
  · exact .true
  · exact .false
  · exact .null
  · exact .ident name

theorem exists_pointRow (hroot : root ∈ contextNames) (hname : isName name.toList = true) :
    ∃ t d k, Token.Row 0 (pointSource root name).toList [] [t, d, k] ∧
      t.lexeme = .ofName root ∧ d.lexeme = .dot ∧ k.lexeme = .ofName name := by
  have hsource : (pointSource root name).toList =
      root.toList ++ (['.'] ++ (name.toList ++ [])) := by simp [pointSource]
  have hpoint (offset : Nat) : Lexeme.scan offset (['.'] ++ (name.toList ++ [] ++ [])) =
      .ok (.dot, ['.'].length) := by
    cases hlist : name.toList with
    | nil =>
      rw [hlist] at hname
      cases hname
    | cons c cs =>
      rw [hlist] at hname
      exact Lexeme.scan_dot (isName_cons_iff.1 hname).1 offset _
  rw [hsource]
  refine ⟨_, _, _, .name (isName_of_mem_contextNames hroot) ?_
    (.word (by simp) ?_ (hpoint _) (.name hname ?_ .nil)), ?_, rfl, ?_⟩
  · rintro _ ⟨⟩
    rfl
  · rintro _ ⟨⟩
    rfl
  · rintro _ ⟨⟩
  · rw [String.ofList_toList]
  · rw [String.ofList_toList]

theorem exists_keyRow (hroot : root ∈ contextNames) (hname : isName name.toList = true)
    (hquote : quote = '"' ∨ quote = '\'') :
    ∃ t o k c, Token.Row 0 (keySource root name quote).toList [] [t, o, k, c] ∧
      t.lexeme = .ofName root ∧ o.lexeme = .lbracket ∧ k.lexeme = .string name ∧
      c.lexeme = .rbracket := by
  have hsource : (keySource root name quote).toList =
      root.toList ++ (['['] ++ (quote :: (name.toList ++ [quote]) ++ ([']'] ++ []))) := by
    simp [keySource]
  have hplain : ∀ d ∈ name.toList, d ≠ quote ∧ d ≠ '\\' ∧ d ≠ '\n' := by
    intro d hd
    have hrest := isNameRest_of_isName hname d hd
    refine ⟨?_, ?_, ?_⟩
    · rintro rfl
      rcases hquote with rfl | rfl <;> cases hrest
    · rintro rfl
      cases hrest
    · rintro rfl
      cases hrest
  rw [hsource]
  refine ⟨_, _, _, _, .name (isName_of_mem_contextNames hroot) ?_
    (.word (by simp) ?_ (Lexeme.scan_lbracket _ _)
      (.quoted hquote hplain (.word (by simp) ?_ (Lexeme.scan_rbracket _ _) .nil))),
    ?_, rfl, ?_, rfl⟩
  · rintro _ ⟨⟩
    rfl
  · rintro _ ⟨⟩
    rfl
  · rintro _ ⟨⟩
    rfl
  · rw [String.ofList_toList]
  · rw [String.ofList_toList]

end

section

variable {root name : String} {quote : Char} {registry : Registry} {limits : Limits}

/-- A row of tokens that spells an expression without helpers is enough to compile its source. -/
theorem Compiled.ofSource_of_row {source : String} {ts : List Token} {e : SourceExpr} {node : Node}
    (hlength : byteLength source.toList ≤ limits.maxSourceLength)
    (hrow : Token.Row 0 source.toList [] ts) (he : Phrase limits.maxDepth .expression ts e)
    (hheight : e.height ≤ limits.maxDepth) (hallowed : ∀ n ∈ e.nodes, n.restriction? = none)
    (hnames : e.helperNames = []) (hnode : e.toNode = .ok node) :
    ofSource registry limits source = .ok ⟨source, node, []⟩ := by
  have hread : SourceExpr.ofSource limits source.toList = .ok e :=
    SourceExpr.ofSource_eq_ok_iff.2 ⟨hlength, SourceExpr.ofText_eq_ok_iff.2 ⟨ts, hrow, he, hheight⟩⟩
  have hregistered : ∀ name ∈ e.helperNames, registry.contains name = true := by simp [hnames]
  have hparts : parts registry limits source.toList = .ok (node, []) :=
    parts_eq_ok_iff.2 ⟨e, hread, SourceExpr.checkAllowed_eq_ok_iff.2 hallowed, hregistered, hnode,
      by rw [hnames]; rfl⟩
  exact ofSource_eq_ok_iff.2 ⟨hparts, rfl⟩

theorem compile_pointSource (hroot : root ∈ contextNames) (hname : isName name.toList = true)
    (hdepth : 2 ≤ limits.maxDepth)
    (hlength : byteLength (pointSource root name).toList ≤ limits.maxSourceLength) :
    Compiled.ofSource registry limits (pointSource root name) =
      .ok ⟨pointSource root name, .contextRead name, []⟩ := by
  obtain ⟨t, d, k, hrow, ht, hd, hk⟩ := exists_pointRow hroot hname
  let object : SourceExpr := .ident (mark [t] []) root
  let e : SourceExpr := .member (mark [t, d, k] [object]) object name
  have hobject : Phrase 0 .chain [t] object := .head (.leaf (leaf_of_mem_contextNames hroot ht))
  have he : Phrase limits.maxDepth .expression [t, d, k] e :=
    (Phrase.member hd (hk ▸ propertyName_ofName name) hobject).alone (by simp) (by omega)
  have hallowed : ∀ n ∈ e.nodes, n.restriction? = none := by
    simp only [e, object, Expr.nodes, List.forall_mem_cons]
    exact ⟨rfl, restriction?_of_mem_contextNames hroot _, by simp⟩
  have hnames : e.helperNames = [] := by
    rw [Expr.helperNames_member]
    exact Expr.helperNames_of_refersTo_contextRoot (refersTo_of_mem_contextNames hroot _)
  have hnode : e.toNode = .ok (.contextRead name) := by
    rw [SourceExpr.toNode, if_pos (refersTo_of_mem_contextNames hroot _)]
  exact Compiled.ofSource_of_row hlength hrow he hdepth hallowed hnames hnode

theorem compile_keySource (hroot : root ∈ contextNames) (hname : isName name.toList = true)
    (hquote : quote = '"' ∨ quote = '\'') (hdepth : 2 ≤ limits.maxDepth)
    (hlength : byteLength (keySource root name quote).toList ≤ limits.maxSourceLength) :
    Compiled.ofSource registry limits (keySource root name quote) =
      .ok ⟨keySource root name quote, .index .contextRoot (.const (.string name)), []⟩ := by
  obtain ⟨t, o, k, c, hrow, ht, ho, hk, hc⟩ := exists_keyRow hroot hname hquote
  let object : SourceExpr := .ident (mark [t] []) root
  let key : SourceExpr := .string (mark [k] []) name
  let e : SourceExpr := .index (mark [t, o, k, c] [object, key]) object key
  have hobject : Phrase 1 .chain [t] object := .head (.leaf (leaf_of_mem_contextNames hroot ht))
  have hkey : Phrase 1 .expression [k] key :=
    (Phrase.leaf (n := 0) (hk ▸ .string name)).alone (by simp) (Nat.le_refl 1)
  have he : Phrase limits.maxDepth .expression [t, o, k, c] e :=
    (Phrase.index ho hc hobject hkey).alone (by simp) hdepth
  have hallowed : ∀ n ∈ e.nodes, n.restriction? = none := by
    simp only [e, object, key, Expr.nodes, List.forall_mem_cons, List.cons_append, List.nil_append]
    exact ⟨rfl, restriction?_of_mem_contextNames hroot _, rfl, by simp⟩
  have hnames : e.helperNames = [] := by
    rw [Expr.helperNames_index,
      Expr.helperNames_of_refersTo_contextRoot (refersTo_of_mem_contextNames hroot _)]
    rfl
  have hnode : e.toNode = .ok (.index .contextRoot (.const (.string name))) := by
    have hobject : object.toNode = .ok .contextRoot :=
      congrArg Except.ok (ofName_of_mem_contextNames hroot)
    rw [SourceExpr.toNode, hobject]
    rfl
  exact Compiled.ofSource_of_row hlength hrow he hdepth hallowed hnames hnode

end

namespace Value

theorem place?_string_of_isName {name : String} (h : isName name.toList = true) :
    place? (.string name) = none := by
  change natural? name.toList = none
  cases hlist : name.toList with
  | nil => rfl
  | cons c cs =>
    rw [hlist] at h
    obtain ⟨hc, -⟩ := isName_cons_iff.1 h
    unfold natural?
    split
    · next heq =>
      obtain rfl := (List.cons.inj heq).1
      cases hc
    · simp [natural?.digits?, isDigit_of_isNameStart hc]

theorem ofCount_ne_null (n : Nat) : ofCount n ≠ .ok .null := by
  unfold ofCount ofResult
  split <;> simp

/-- Under a name that is no number, an object has its field, an array and a string have nothing but
their length, and other values have no properties. -/
theorem property_name_eq_ok_iff {name : String} (h : isName name.toList = true) (v : Value) :
    v.property (.string name) = .ok (((Context.ofValue v).get name).getD .null) ↔
      v.kind = .object ∨ (v.kind = .array ∨ v.kind = .string) ∧ name ≠ "length" := by
  have hplace := place?_string_of_isName h
  cases v with
  | null | bool b | number n => simp [property, kind]
  | object fields => simp [property, kind, Context.ofValue, plainText]
  | array items | string s =>
    by_cases hlength : name = "length"
    · subst hlength
      simp [property, kind, Context.ofValue, plainText, ofCount_ne_null]
    · simp [property, kind, Context.ofValue, plainText, hlength, hplace]

end Value

theorem Context.ofEntries_eq (entries : List (String × Value)) :
    ofEntries entries = ofValue (.object entries) := rfl

theorem sameOutcome_ok_iff {v : Value} {x : Except EvaluationError Value} :
    SameOutcome (.ok v) x ↔ x = .ok v := by
  cases x <;> simp [SameOutcome, Except.mapError, eq_comm]

namespace Compiled

variable {source name : String} {helpers : List String}

theorem run_contextRead (context : Context) (w : World) :
    (run ⟨source, .contextRead name, helpers⟩ context w).1 =
      .ok ((context.get name).getD .null) := rfl

theorem run_contextKey_eq_ok_iff {context : Context} {w : World} {v : Value} :
    (run ⟨source, .index .contextRoot (.const (.string name)), helpers⟩ context w).1 = .ok v ↔
      context.root.property (.string name) = .ok v := by
  have hperform : (Node.index .contextRoot (.const (.string name))).run.perform context w =
      (context.root.property (.string name), w.note .readRoot) := rfl
  rw [run, hperform]
  cases context.root.property (.string name) <;> simp

end Compiled

/-- A name after a point and the same name for a key have the same outcome on every object. On an
array and on a string they have unless the name is that of the length, and on other values they never
have: the name after a point reads as null there. -/
theorem context_access_agrees {root name : String} {quote : Char} (hroot : root ∈ contextNames)
    (hname : isName name.toList = true) (hquote : quote = '"' ∨ quote = '\'')
    (registry : Registry) {limits : Limits} (hdepth : 2 ≤ limits.maxDepth)
    (hlength : byteLength (keySource root name quote).toList ≤ limits.maxSourceLength) :
    ∃ c d : Compiled,
      Compiled.ofSource registry limits (pointSource root name) = .ok c ∧
      Compiled.ofSource registry limits (keySource root name quote) = .ok d ∧
      (∀ entries w, SameOutcome (c.run (.ofEntries entries) w).1 (d.run (.ofEntries entries) w).1) ∧
      ∀ v w,
        (SameOutcome (c.run (.ofValue v) w).1 (d.run (.ofValue v) w).1 ↔
          v.kind = .object ∨ (v.kind = .array ∨ v.kind = .string) ∧ name ≠ "length") ∧
        (v.kind ≠ .object → (c.run (.ofValue v) w).1 = .ok .null) := by
  have hshorter : byteLength (pointSource root name).toList ≤ limits.maxSourceLength := by
    have hpoint : byteLength ".".toList = 1 := rfl
    have hbracket : byteLength "[".toList = 1 := rfl
    simp only [pointSource, keySource, String.toList_append, String.toList_ofList,
      byteLength_append, byteLength_cons] at hlength ⊢
    omega
  have hvalue (v : Value) (w : World) :
      SameOutcome (Compiled.run ⟨pointSource root name, .contextRead name, []⟩ (.ofValue v) w).1
        (Compiled.run ⟨keySource root name quote, .index .contextRoot (.const (.string name)), []⟩
          (.ofValue v) w).1 ↔
      v.kind = .object ∨ (v.kind = .array ∨ v.kind = .string) ∧ name ≠ "length" := by
    rw [Compiled.run_contextRead, sameOutcome_ok_iff, Compiled.run_contextKey_eq_ok_iff]
    exact v.property_name_eq_ok_iff hname
  refine ⟨_, _, compile_pointSource hroot hname hdepth hshorter,
    compile_keySource hroot hname hquote hdepth hlength, ?_, ?_⟩
  · intro entries w
    rw [Context.ofEntries_eq]
    exact (hvalue (.object entries) w).2 (.inl rfl)
  · intro v w
    refine ⟨hvalue v w, ?_⟩
    intro hobject
    rw [Compiled.run_contextRead]
    cases v with
    | object fields => exact absurd rfl hobject
    | _ => rfl

/-- An object with a field of the name, and null. -/
theorem context_access_agrees_sample :
    ∃ c d : Compiled,
      Compiled.ofSource .standard {} "this.length" = .ok c ∧
      Compiled.ofSource .standard {} "this['length']" = .ok d ∧
      SameOutcome (c.run (.ofEntries [("length", .null)]) ⟨.standard, []⟩).1
        (d.run (.ofEntries [("length", .null)]) ⟨.standard, []⟩).1 ∧
      ¬ SameOutcome (c.run (.ofValue .null) ⟨.standard, []⟩).1
        (d.run (.ofValue .null) ⟨.standard, []⟩).1 := by
  have hroot : "this" ∈ contextNames := by decide
  have hname : isName "length".toList = true := rfl
  have hquote : '\'' = '"' ∨ '\'' = '\'' := .inr rfl
  have hdepth : 2 ≤ (({} : Limits)).maxDepth := by decide
  obtain ⟨c, d, hc, hd, entries, value⟩ :=
    context_access_agrees hroot hname hquote .standard hdepth (by decide)
  refine ⟨c, d, hc, hd, entries _ _, ?_⟩
  rw [(value .null _).1]
  decide

/-- An array has a length under the key, but not after the point. -/
theorem context_access_differs_at_length :
    ∃ c d : Compiled,
      Compiled.ofSource .standard {} "$.length" = .ok c ∧
      Compiled.ofSource .standard {} "$['length']" = .ok d ∧
      (c.run (.ofValue (.array [])) ⟨.standard, []⟩).1 = .ok .null ∧
      (d.run (.ofValue (.array [])) ⟨.standard, []⟩).1 = .ok (.int 0) ∧
      ¬ SameOutcome (c.run (.ofValue (.array [])) ⟨.standard, []⟩).1
        (d.run (.ofValue (.array [])) ⟨.standard, []⟩).1 := by
  have hroot : "$" ∈ contextNames := by decide
  have hname : isName "length".toList = true := rfl
  have hquote : '\'' = '"' ∨ '\'' = '\'' := .inr rfl
  have hdepth : 2 ≤ (({} : Limits)).maxDepth := by decide
  have hzero : Number.ofBinary64? (.ofNat 0) = some (.int 0) := by decide +kernel
  have hlength : Value.property (.array []) (.string "length") = .ok (.int 0) := by
    have hcount : Value.property (.array []) (.string "length") = Value.ofCount 0 := by
      simp [Value.property, Value.plainText]
    rw [hcount, Value.ofCount, Value.ofResult, hzero]
    rfl
  have hpoint : Compiled.ofSource .standard {} (pointSource "$" "length") =
      .ok ⟨"$.length", .contextRead "length", []⟩ :=
    compile_pointSource hroot hname hdepth (by decide)
  have hkey : Compiled.ofSource .standard {} (keySource "$" "length" '\'') =
      .ok ⟨"$['length']", .index .contextRoot (.const (.string "length")), []⟩ :=
    compile_keySource hroot hname hquote hdepth (by decide)
  refine ⟨_, _, hpoint, hkey, rfl, Compiled.run_contextKey_eq_ok_iff.2 hlength, ?_⟩
  rw [Compiled.run_contextRead, sameOutcome_ok_iff, Compiled.run_contextKey_eq_ok_iff]
  simp [Context.ofValue, hlength, Value.int]

end SigilExpr
