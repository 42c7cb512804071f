import SigilExpr.Proofs.Engine.ContextAccess
import SigilExpr.Proofs.Syntax.Acceptance
import SigilExpr.Proofs.Token.Delimited

/-!
# Expressions that are written down

Every expression has a text: its parts stand in parentheses, each string between quotes, and each
number as some literal for it. Between the words may be blanks, which are NOT needed. The text reads
as the expression, by induction on the tree with one lemma for each form.

A text cannot be written for every tree: a name has to be spelled as one, and a word of the language
is no name of an operand.
-/

set_option autoImplicit false

namespace SigilExpr

open Text Grammar SigilExpr.Parser

theorem UnaryOp.scan_delimited (op : UnaryOp) {r : List Char} (hr : Delimited r) (offset : Nat) :
    Lexeme.scan offset (op.spelling.toList ++ r) = .ok (op.lexeme, op.spelling.toList.length) := by
  refine Lexeme.scan_delimited ?_ ?_ ?_ ?_ hr offset
  all_goals cases op <;> first | exact fun _ => rfl | decide | exact fun _ _ => rfl

theorem Connective.scan_delimited (op : Connective) {r : List Char} (hr : Delimited r)
    (offset : Nat) :
    Lexeme.scan offset (op.spelling.toList ++ r) = .ok (op.lexeme, op.spelling.toList.length) := by
  refine Lexeme.scan_delimited ?_ ?_ ?_ ?_ hr offset
  all_goals rcases op with op | op <;> cases op <;>
    first | exact fun _ => rfl | decide | exact fun _ _ => rfl

namespace Text

/-- The words with a gap behind each. -/
def spaced (gap : List Char) (ws : List (List Char)) : List Char := ws.flatMap (· ++ gap)

@[simp] theorem spaced_nil (gap : List Char) : spaced gap [] = [] := rfl

@[simp] theorem spaced_cons (gap w : List Char) (ws : List (List Char)) :
    spaced gap (w :: ws) = w ++ (gap ++ spaced gap ws) := by
  simp [spaced]

@[simp] theorem spaced_append (gap : List Char) (ws vs : List (List Char)) :
    spaced gap (ws ++ vs) = spaced gap ws ++ spaced gap vs :=
  List.flatMap_append

end Text

namespace Expr

/-- Words in parentheses. -/
def grouped (ws : List (List Char)) : List (List Char) := ['('] :: (ws ++ [[')']])

mutual

/-- The words of an expression whose parts all stand in parentheses, with literals for numbers. -/
def words (literal : Binary64 → List Char) : Expr Unit → List (List Char)
  | .number _ x => [literal x]
  | .string _ s => [Quoted.escaped s.toList]
  | .bool _ b => [(toString b).toList]
  | .null _ => ["null".toList]
  | .ident _ name => [name.toList]
  | .unary _ op e => op.spelling.toList :: grouped (words literal e)
  | .binary _ op l r =>
    grouped (words literal l) ++ op.spelling.toList :: grouped (words literal r)
  | .logical _ op l r =>
    grouped (words literal l) ++ op.spelling.toList :: grouped (words literal r)
  | .conditional _ t a b =>
    grouped (words literal t) ++ ['?'] :: (grouped (words literal a) ++
      [':'] :: grouped (words literal b))
  | .call _ f args => grouped (words literal f) ++ ['('] :: (wordsAll literal args ++ [[')']])
  | .member _ o name => grouped (words literal o) ++ [['.'], name.toList]
  | .index _ o k => grouped (words literal o) ++ ['['] :: (grouped (words literal k) ++ [[']']])
  | .array _ items => ['['] :: (wordsAll literal items ++ [[']']])

/-- Each expression in parentheses, with commas between them. -/
def wordsAll (literal : Binary64 → List Char) : List (Expr Unit) → List (List Char)
  | [] => []
  | [e] => grouped (words literal e)
  | e :: es => grouped (words literal e) ++ [','] :: wordsAll literal es

end

/-- The expression as a text, with a gap behind each word. -/
def written (literal : Binary64 → List Char) (gap : List Char) (e : Expr Unit) : List Char :=
  spaced gap (e.words literal)

/-- The node stands in a text as it is: a name is spelled as one, and it is no word of the language
where it is an operand by itself, and a number has the literal that it gets. -/
def Writable (literal : Binary64 → List Char) : Expr Unit → Prop
  | .ident _ name =>
    isName name.toList = true ∧ name ∉ ["true", "false", "null", "new", "typeof", "void", "delete"]
  | .member _ _ name => isName name.toList = true
  | .number _ x => NumberLiteral.Denotes (literal x) x
  | _ => True

end Expr

namespace Token

/-- The words, with a gap behind each, read as the lexemes before any text with the property. -/
def Spells (gap : List Char) (P : List Char → Prop) (ws : List (List Char)) (ls : List Lexeme) :
    Prop :=
  ∀ offset rest, P rest → ∃ ts, Row offset (spaced gap ws) rest ts ∧ ts.map Token.lexeme = ls

/-- Any text may stand behind. -/
def Anything (_ : List Char) : Prop := True

namespace Spells

variable {gap : List Char} {P Q : List Char → Prop} {w : List Char} {ws vs : List (List Char)}
  {l : Lexeme} {ls ms : List Lexeme}

theorem mono (h : Spells gap P ws ls) (hPQ : ∀ r, Q r → P r) : Spells gap Q ws ls :=
  fun offset rest hrest => h offset rest (hPQ rest hrest)

theorem append (h : Spells gap P ws ls) (h' : Spells gap Q vs ms)
    (hP : ∀ rest, Q rest → P (spaced gap vs ++ rest)) : Spells gap Q (ws ++ vs) (ls ++ ms) := by
  intro offset rest hrest
  obtain ⟨ts, hts, rfl⟩ := h offset (spaced gap vs ++ rest) (hP rest hrest)
  obtain ⟨us, hus, rfl⟩ := h' (offset + byteLength (spaced gap ws)) rest hrest
  refine ⟨ts ++ us, ?_, List.map_append⟩
  rw [spaced_append]
  exact hts.append hus

theorem nil : Spells gap P [] [] := fun _ _ _ => ⟨[], .nil, rfl⟩

/-- One word, which reads as the lexeme before what the gap and the text behind it begin with. -/
theorem word (hgap : ∀ c ∈ gap, isBlank c = true) (hw : w ≠ []) (hblank : Stops isBlank w)
    (h : ∀ offset rest, P rest → Lexeme.scan offset (w ++ (gap ++ rest)) = .ok (l, w.length)) :
    Spells gap P [w] [l] := by
  intro offset rest hrest
  refine ⟨[⟨l, ⟨offset, offset + byteLength w⟩⟩], ?_, rfl⟩
  have hrow : Row (offset + byteLength w) gap rest [] := .blanks hgap
  simpa [spaced] using Row.word hw hblank (h offset rest hrest) hrow

/-- A character that is a word by itself. -/
theorem symbol (hgap : ∀ c ∈ gap, isBlank c = true) {c : Char} (hc : isBlank c = false)
    (h : ∀ offset rest, Lexeme.scan offset (c :: rest) = .ok (l, 1)) :
    Spells gap Anything [[c]] [l] := by
  refine .word hgap (by simp) ?_ fun offset rest _ => h offset _
  rintro _ ⟨⟩
  exact hc

/-- Words between two others, of which the second may stand behind them. -/
theorem between {v : List Char} {k m : Lexeme} (hopen : Spells gap Anything [v] [k])
    (h : Spells gap P ws ls) (hclose : Spells gap Anything [w] [m])
    (hP : ∀ rest, P (spaced gap [w] ++ rest)) :
    Spells gap Anything (v :: (ws ++ [w])) (k :: (ls ++ [m])) :=
  hopen.append (h.append hclose fun rest _ => hP rest) fun _ _ => trivial

theorem parentheses (hgap : ∀ c ∈ gap, isBlank c = true) (h : Spells gap P ws ls)
    (hP : ∀ rest, P (')' :: rest)) :
    Spells gap Anything (['('] :: (ws ++ [[')']])) (.lparen :: (ls ++ [.rparen])) :=
  .between (.symbol hgap rfl fun _ _ => rfl) h (.symbol hgap rfl fun _ _ => rfl) fun _ => hP _

theorem brackets (hgap : ∀ c ∈ gap, isBlank c = true) (h : Spells gap Anything ws ls) :
    Spells gap Anything (['['] :: (ws ++ [[']']])) (.lbracket :: (ls ++ [.rbracket])) :=
  .between (.symbol hgap rfl fun _ _ => rfl) h (.symbol hgap rfl fun _ _ => rfl) fun _ => trivial

/-- A word that reads as the lexeme before blanks and parentheses. -/
theorem plain (hgap : ∀ c ∈ gap, isBlank c = true) (hw : w ≠ []) (hblank : Stops isBlank w)
    (h : ∀ offset rest, Delimited rest → Lexeme.scan offset (w ++ rest) = .ok (l, w.length)) :
    Spells gap Delimited [w] [l] :=
  .word hgap hw hblank fun offset _ hrest => h offset _ (hrest.gap hgap)

theorem ofName (hgap : ∀ c ∈ gap, isBlank c = true) (name : String)
    (hname : isName name.toList = true) : Spells gap Delimited [name.toList] [.ofName name] := by
  refine .plain hgap ?_ (stops_of_isName hname) ?_
  · intro hnil
    rw [hnil] at hname
    cases hname
  · intro offset rest hrest
    have hstop : Stops isNameRest rest := hrest.stops (fun _ => printable_of_isNameRest) rfl rfl
    rw [Lexeme.scan_name hname hstop, String.ofList_toList]

theorem property (hgap : ∀ c ∈ gap, isBlank c = true) {name : String}
    (hname : isName name.toList = true) :
    Spells gap Delimited [['.'], name.toList] [.dot, .ofName name] := by
  have hdot : Spells gap (fun rest => ∃ c r, rest = c :: r ∧ isNameStart c = true)
      [['.']] [.dot] := by
    refine .word hgap (by simp) (by rintro _ ⟨⟩; rfl) ?_
    rintro offset _ ⟨c, r, rfl, hc⟩
    cases gap with
    | nil => exact Lexeme.scan_dot hc offset r
    | cons b gap =>
      refine Lexeme.scan_append_of_blank (by simp) rfl ?_ offset
      rintro _ ⟨⟩
      exact hgap b List.mem_cons_self
  refine hdot.append (.ofName hgap name hname) ?_
  intro rest _
  cases hlist : name.toList with
  | nil =>
    rw [hlist] at hname
    cases hname
  | cons c cs =>
    rw [hlist] at hname
    exact ⟨c, _, rfl, (isName_cons_iff.1 hname).1⟩

end Spells

end Token

section

open SigilExpr.Expr SigilExpr.Token

variable {literal : Binary64 → List Char} {gap : List Char} {e f l r k t a b : Expr Unit}
  {es : List (Expr Unit)} {ls ms : List Lexeme} {p : Nat}

namespace Grammar.Derives

theorem of_unary (h : Derives .unary ls e) : Derives .expression ls e :=
  .test ((Derives.operand h).loosen (by omega) (Nat.le_refl 11))

theorem of_primary (h : Derives .primary ls e) : Derives .expression ls e :=
  of_unary (.plain (.head h))

theorem level_of_primary (h : Derives .primary ls e) (hp : p ≤ 11) : Derives (.level p) ls e :=
  (Derives.operand (.plain (.head h))).loosen hp (Nat.le_refl 11)

theorem of_join (op : Connective) (hl : Derives .primary ls l) (hr : Derives .primary ms r) :
    Derives .expression (ls ++ op.lexeme :: ms) (join () op l r) := by
  have hlevel := op.level_le
  have hpos : 1 ≤ op.level := by
    rcases op with op | op <;> cases op <;> decide
  have hconnect : Derives (.level op.level) (ls ++ op.lexeme :: ms) (join () op l r) :=
    .connect op (mem_operatorsAt_iff.2 rfl) (hl.level_of_primary (by omega))
      (hr.level_of_primary (by omega))
  exact .test (hconnect.loosen hpos (by omega))

end Grammar.Derives

/-- The words of the expression read as it. -/
def Reads (literal : Binary64 → List Char) (gap : List Char) (e : Expr Unit) : Prop :=
  ∃ ls, Spells gap Delimited (e.words literal) ls ∧ Derives .expression ls e

/-- The words of the expression in parentheses read as it. -/
def ReadsPart (literal : Binary64 → List Char) (gap : List Char) (e : Expr Unit) : Prop :=
  ∃ ls, Spells gap Anything (grouped (e.words literal)) ls ∧ Derives .primary ls e

def ReadsAll (literal : Binary64 → List Char) (gap : List Char) (es : List (Expr Unit)) : Prop :=
  ∃ ls, Spells gap Anything (wordsAll literal es) ls ∧ DerivesItems ls es

theorem delimited_grouped (ws : List (List Char)) (rest : List Char) :
    Delimited (spaced gap (grouped ws) ++ rest) := by
  rintro _ ⟨⟩
  exact .inr (.inl rfl)

theorem words_join (op : Connective) :
    (join () op l r).words literal =
      grouped (l.words literal) ++ op.spelling.toList :: grouped (r.words literal) := by
  cases op <;> simp only [join, words, Connective.spelling]

namespace Reads

theorem part (hgap : ∀ c ∈ gap, isBlank c = true) (h : Reads literal gap e) :
    ReadsPart literal gap e := by
  obtain ⟨ls, hls, hd⟩ := h
  refine ⟨_, hls.parentheses hgap ?_, .group hd⟩
  rintro rest _ ⟨⟩
  exact .inr (.inr rfl)

theorem unary (hgap : ∀ c ∈ gap, isBlank c = true) (op : UnaryOp) (h : ReadsPart literal gap e) :
    Reads literal gap (.unary () op e) := by
  obtain ⟨ls, hls, hd⟩ := h
  have hop : Spells gap Delimited [op.spelling.toList] [op.lexeme] :=
    .plain hgap (by cases op <;> decide) (by cases op <;> (rintro _ ⟨⟩; rfl))
      fun offset rest hrest => op.scan_delimited hrest offset
  refine ⟨_, ?_, .of_unary (.unary op (.plain (.head hd)))⟩
  rw [words]
  exact (hop.append hls fun rest _ => delimited_grouped _ rest).mono fun _ _ => trivial

theorem join (hgap : ∀ c ∈ gap, isBlank c = true) (op : Connective) (hl : ReadsPart literal gap l)
    (hr : ReadsPart literal gap r) : Reads literal gap (Grammar.join () op l r) := by
  obtain ⟨ls, hls, hl⟩ := hl
  obtain ⟨ms, hms, hr⟩ := hr
  have hop : Spells gap Delimited [op.spelling.toList] [op.lexeme] :=
    .plain hgap (by rcases op with op | op <;> cases op <;> decide)
      (by rcases op with op | op <;> cases op <;> (rintro _ ⟨⟩; rfl))
      fun offset rest hrest => op.scan_delimited hrest offset
  refine ⟨_, ?_, .of_join op hl hr⟩
  rw [words_join]
  have hright := hop.append hms fun rest _ => delimited_grouped _ rest
  exact (hls.append hright fun _ _ => trivial).mono fun _ _ => trivial

theorem conditional (hgap : ∀ c ∈ gap, isBlank c = true) (ht : ReadsPart literal gap t)
    (ha : ReadsPart literal gap a) (hb : ReadsPart literal gap b) :
    Reads literal gap (.conditional () t a b) := by
  obtain ⟨ls, hls, ht⟩ := ht
  obtain ⟨ms, hms, ha⟩ := ha
  obtain ⟨ns, hns, hb⟩ := hb
  have hquestion : Spells gap Anything [['?']] [.question] := .symbol hgap rfl fun _ _ => rfl
  have hcolon : Spells gap Anything [[':']] [.colon] := .symbol hgap rfl fun _ _ => rfl
  refine ⟨_, ?_, .choice (ht.level_of_primary (by omega)) ha.of_primary hb.of_primary⟩
  have hlast := hcolon.append hns fun _ _ => trivial
  have hmiddle := hquestion.append (hms.append hlast fun _ _ => trivial) fun _ _ => trivial
  rw [words]
  exact (hls.append hmiddle fun _ _ => trivial).mono fun _ _ => trivial

theorem member (hgap : ∀ c ∈ gap, isBlank c = true) {name : String}
    (hname : isName name.toList = true) (h : ReadsPart literal gap e) :
    Reads literal gap (.member () e name) := by
  obtain ⟨ls, hls, hd⟩ := h
  refine ⟨_, ?_, .of_unary (.plain (.member (.head hd) (propertyName_ofName name)))⟩
  rw [words]
  exact hls.append (.property hgap hname) fun _ _ => trivial

theorem index (hgap : ∀ c ∈ gap, isBlank c = true) (he : ReadsPart literal gap e)
    (hk : ReadsPart literal gap k) : Reads literal gap (.index () e k) := by
  obtain ⟨ls, hls, he⟩ := he
  obtain ⟨ms, hms, hk⟩ := hk
  refine ⟨_, ?_, .of_unary (.plain (.index (.head he) hk.of_primary))⟩
  rw [words]
  exact (hls.append (hms.brackets hgap) fun _ _ => trivial).mono fun _ _ => trivial

theorem call (hgap : ∀ c ∈ gap, isBlank c = true) (he : ReadsPart literal gap e)
    (hes : ReadsAll literal gap es) : Reads literal gap (.call () e es) := by
  obtain ⟨ls, hls, he⟩ := he
  obtain ⟨ms, hms, hes⟩ := hes
  have hargs := hms.parentheses hgap fun _ => trivial
  refine ⟨_, ?_, .of_unary (.plain (.call (.head he) hes))⟩
  rw [words]
  exact (hls.append hargs fun _ _ => trivial).mono fun _ _ => trivial

theorem array (hgap : ∀ c ∈ gap, isBlank c = true) (hes : ReadsAll literal gap es) :
    Reads literal gap (.array () es) := by
  obtain ⟨ls, hls, hes⟩ := hes
  refine ⟨_, ?_, .of_primary (.array hes)⟩
  rw [words]
  exact (hls.brackets hgap).mono fun _ _ => trivial

/-- An operand that is one word. -/
theorem leaf {w : List Char} {l : Lexeme} (hwords : e.words literal = [w])
    (hw : Spells gap Delimited [w] [l]) (h : Leaf () l e) : Reads literal gap e :=
  ⟨[l], hwords ▸ hw, .of_primary (.leaf h)⟩

end Reads

theorem ReadsAll.cons (hgap : ∀ c ∈ gap, isBlank c = true) (he : ReadsPart literal gap e)
    (hes : ReadsAll literal gap es) : ReadsAll literal gap (e :: es) := by
  obtain ⟨ls, hls, he⟩ := he
  obtain ⟨ms, hms, hes⟩ := hes
  cases es with
  | nil => exact ⟨ls, hls, .last he.of_primary⟩
  | cons f es =>
    have hcomma : Spells gap Anything [[',']] [.comma] := .symbol hgap rfl fun _ _ => rfl
    refine ⟨_, ?_, .more he.of_primary hes⟩
    rw [wordsAll]
    · exact hls.append (hcomma.append hms fun _ _ => trivial) fun _ _ => trivial
    · simp

theorem reads_ident (hgap : ∀ c ∈ gap, isBlank c = true) {name : String}
    (h : Writable literal (.ident () name)) : Reads literal gap (.ident () name) := by
  obtain ⟨hname, hword⟩ := h
  have hlexeme : Lexeme.ofName name = .ident name := by
    unfold Lexeme.ofName
    split <;> simp_all
  have hreserved : name ∉ reservedWords :=
    fun hmem => hword (List.mem_append_right ["true", "false", "null"] hmem)
  refine .leaf (w := name.toList) (l := .ident name) ?_ (hlexeme ▸ .ofName hgap name hname)
    (.ident name hreserved)
  rw [words]

theorem reads_number (hgap : ∀ c ∈ gap, isBlank c = true) {x : Binary64}
    (h : NumberLiteral.Denotes (literal x) x) : Reads literal gap (.number () x) :=
  .leaf (by rw [words])
    (.plain hgap h.ne_nil h.stops fun offset _ hrest => Lexeme.scan_number h hrest offset) (.number x)

theorem reads_string (hgap : ∀ c ∈ gap, isBlank c = true) (s : String) :
    Reads literal gap (.string () s) := by
  refine .leaf (w := Quoted.escaped s.toList) (l := .string s) (by rw [words])
    (.plain hgap (List.cons_ne_nil _ _) ?_ ?_) (.string s)
  · rintro _ ⟨⟩
    rfl
  · intro offset rest _
    rw [Lexeme.scan_escaped, String.ofList_toList]

theorem reads_bool (hgap : ∀ c ∈ gap, isBlank c = true) (v : Bool) :
    Reads literal gap (.bool () v) := by
  cases v with
  | true => exact .leaf (by rw [words]; rfl) (.ofName hgap "true" rfl) (.bool true)
  | false => exact .leaf (by rw [words]; rfl) (.ofName hgap "false" rfl) (.bool false)

theorem reads_null (hgap : ∀ c ∈ gap, isBlank c = true) : Reads literal gap (.null ()) :=
  .leaf (by rw [words]) (.ofName hgap "null" rfl) .null

mutual

/-- By induction on the tree, with one lemma for each form. -/
theorem reads_of_writable (hgap : ∀ c ∈ gap, isBlank c = true) :
    (e : Expr Unit) → (∀ n ∈ e.nodes, n.Writable literal) → Reads literal gap e
  | .number _ x, h => reads_number hgap (h _ (self_mem_nodes _))
  | .string _ s, _ => reads_string hgap s
  | .bool _ v, _ => reads_bool hgap v
  | .null _, _ => reads_null hgap
  | .ident _ name, h => reads_ident hgap (h _ (self_mem_nodes _))
  | .unary _ op e, h => by
    simp only [nodes, List.forall_mem_cons] at h
    exact .unary hgap op ((reads_of_writable hgap e h.2).part hgap)
  | .binary _ op l r, h => by
    simp only [nodes, List.forall_mem_cons, List.forall_mem_append] at h
    exact .join hgap (.binary op) ((reads_of_writable hgap l h.2.1).part hgap)
      ((reads_of_writable hgap r h.2.2).part hgap)
  | .logical _ op l r, h => by
    simp only [nodes, List.forall_mem_cons, List.forall_mem_append] at h
    exact .join hgap (.logical op) ((reads_of_writable hgap l h.2.1).part hgap)
      ((reads_of_writable hgap r h.2.2).part hgap)
  | .conditional _ t a b, h => by
    simp only [nodes, List.forall_mem_cons, List.forall_mem_append] at h
    exact .conditional hgap ((reads_of_writable hgap t h.2.1.1).part hgap)
      ((reads_of_writable hgap a h.2.1.2).part hgap) ((reads_of_writable hgap b h.2.2).part hgap)
  | .call _ e es, h => by
    simp only [nodes, List.forall_mem_cons, List.forall_mem_append] at h
    exact .call hgap ((reads_of_writable hgap e h.2.1).part hgap) (readsAll_of_writable hgap es h.2.2)
  | .member _ e name, h => by
    simp only [nodes, List.forall_mem_cons] at h
    exact .member hgap h.1 ((reads_of_writable hgap e h.2).part hgap)
  | .index _ e k, h => by
    simp only [nodes, List.forall_mem_cons, List.forall_mem_append] at h
    exact .index hgap ((reads_of_writable hgap e h.2.1).part hgap)
      ((reads_of_writable hgap k h.2.2).part hgap)
  | .array _ es, h => by
    simp only [nodes, List.forall_mem_cons] at h
    exact .array hgap (readsAll_of_writable hgap es h.2)

theorem readsAll_of_writable (hgap : ∀ c ∈ gap, isBlank c = true) :
    (es : List (Expr Unit)) → (∀ n ∈ nodesAll es, n.Writable literal) → ReadsAll literal gap es
  | [], _ => ⟨[], fun _ _ _ => ⟨[], .nil, rfl⟩, .nil⟩
  | e :: es, h => by
    simp only [nodesAll, List.forall_mem_append] at h
    exact .cons hgap ((reads_of_writable hgap e h.1).part hgap) (readsAll_of_writable hgap es h.2)

end

end

/-- Literals that are chosen for the numbers of a tree one by one are literals for all of them. -/
theorem Expr.exists_literal {e : Expr Unit} (h : ∀ n ∈ e.nodes, ∃ literal, n.Writable literal) :
    ∃ literal, ∀ n ∈ e.nodes, n.Writable literal := by
  classical
  let literal (x : Binary64) : List Char :=
    if hx : ∃ w, NumberLiteral.Denotes w x then hx.choose else []
  refine ⟨literal, ?_⟩
  intro n hn
  obtain ⟨other, hother⟩ := h n hn
  cases n with
  | number note x =>
    have hx : ∃ w, NumberLiteral.Denotes w x := ⟨other x, hother⟩
    have hliteral : literal x = hx.choose := dif_pos hx
    rw [Writable, hliteral]
    exact hx.choose_spec
  | _ => exact hother

/-- Every tree of nodes that can be written is read back: there are literals for its numbers, and
with any such literals its text, with any blanks between the words or none, has tokens that parse to
the tree within every limit that is large enough. -/
theorem expressions_are_read_back (e : Expr Unit) (h : ∀ n ∈ e.nodes, ∃ literal, n.Writable literal)
    (gap : List Char) (hgap : ∀ c ∈ gap, isBlank c = true) :
    (∃ literal, ∀ n ∈ e.nodes, n.Writable literal) ∧
    ∀ literal, (∀ n ∈ e.nodes, n.Writable literal) →
      ∃ tokens depth, Token.ofSource (e.written literal gap) = .ok tokens ∧
        ∀ limit, depth ≤ limit → ∃ e', parse limit tokens = .ok e' ∧
          SourceExpr.ofText limit (e.written literal gap) = .ok e' ∧ e'.bare = e := by
  refine ⟨Expr.exists_literal h, ?_⟩
  intro literal hliteral
  obtain ⟨ls, hls, hd⟩ := reads_of_writable hgap e hliteral
  obtain ⟨ts, hts, rfl⟩ := hls 0 [] (by rintro _ ⟨⟩)
  let tokens := ts ++ [Token.endAt (byteLength (e.written literal gap))]
  have htokens : Token.ofSource (e.written literal gap) = .ok tokens :=
    Token.ofSource_eq_ok_iff.2 ⟨ts, rfl, hts⟩
  have hbody : beforeEnd tokens = ts.map Token.lexeme := beforeEnd_append rfl hd.eof_notMem
  refine ⟨tokens, tokens.length, htokens, ?_⟩
  intro limit hlimit
  obtain ⟨e', he', hbare⟩ :=
    parse_of_derives (Token.ended_of_ofSource htokens) hlimit (hbody.symm ▸ hd)
  refine ⟨e', he', ?_, hbare⟩
  rw [SourceExpr.ofText, htokens]
  exact he'

/-- Words of operators as names, a word of the language after a point, and a text with escapes. -/
theorem expressions_are_read_back_sample :
    ∃ (e : Expr Unit) (literal : Binary64 → List Char) (text : List Char),
      text = "((in)in(.5))?(((_).null)((typeof(\"\\\"\\n\")))):([(true),((super)[(null)])])".toList ∧
      e.written literal [] = text ∧ (∀ n ∈ e.nodes, n.Writable literal) ∧
      ∃ tokens depth, Token.ofSource text = .ok tokens ∧
        ∀ limit, depth ≤ limit → ∃ e', parse limit tokens = .ok e' ∧
          SourceExpr.ofText limit text = .ok e' ∧ e'.bare = e := by
  let half : Binary64 := .finite false (pow2 52) (-53)
  let e : Expr Unit :=
    .conditional () (.binary () .isIn (.ident () "in") (.number () half))
      (.call () (.member () (.ident () "_") "null") [.unary () .typeof (.string () "\"\n")])
      (.array () [.bool () true, .index () (.ident () "super") (.null ())])
  let literal (_ : Binary64) : List Char := ".5".toList
  have h : ∀ n ∈ e.nodes, n.Writable literal := by
    have hhalf : NumberLiteral.Denotes ".5".toList half := ⟨rfl, by decide +kernel⟩
    have hin : Expr.Writable literal (.ident () "in") := ⟨rfl, by decide⟩
    have hunderscore : Expr.Writable literal (.ident () "_") := ⟨rfl, by decide⟩
    have hsuper : Expr.Writable literal (.ident () "super") := ⟨rfl, by decide⟩
    have hnull : Expr.Writable literal (.member () (.ident () "_") "null") := rfl
    simp only [e, Expr.nodes, Expr.nodesAll, List.forall_mem_append, List.forall_mem_cons]
    simp only [hin, hunderscore, hsuper, hnull, List.not_mem_nil, IsEmpty.forall_iff, implies_true,
      and_true, true_and]
    exact ⟨trivial, ⟨⟨trivial, hhalf⟩, trivial, trivial, trivial⟩, trivial, trivial, trivial, trivial⟩
  have hwritten : e.written literal [] =
      "((in)in(.5))?(((_).null)((typeof(\"\\\"\\n\")))):([(true),((super)[(null)])])".toList := by
    decide +kernel
  obtain ⟨-, hread⟩ := expressions_are_read_back e (fun n hn => ⟨literal, h n hn⟩) [] (by simp)
  have hread := hread literal h
  rw [hwritten] at hread
  exact ⟨e, literal, _, rfl, hwritten, h, hread⟩

end SigilExpr
