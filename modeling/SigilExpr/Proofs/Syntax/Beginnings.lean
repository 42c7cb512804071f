import SigilExpr.Proofs.Syntax.Grouping

/-!
# Beginnings of expressions

A row is a beginning of an expression if more lexemes make it one, and a few kinds of lexemes are
enough for that. A token that does not go on with a beginning is to blame, either as a form that is
refused by name or as malformed text.
-/

set_option autoImplicit false

namespace SigilExpr

namespace Grammar

/-- Lexemes that are enough to bring any beginning of an expression to its end. -/
def closers : List Lexeme := [.ident "a", .colon, .rparen, .rbracket]

/-- More lexemes make the row one that derives from `x`. -/
def Begins (x : Nonterminal) (ls : List Lexeme) : Prop :=
  ∃ more e, (∀ l ∈ more, l ∈ closers) ∧ Derives x (ls ++ more) e

/-- More lexemes make the row one of items and the token that closes them. -/
def BeginsItems (close : Lexeme) (ls : List Lexeme) : Prop :=
  ∃ more ms es, (∀ l ∈ more, l ∈ closers) ∧ ls ++ more = ms ++ [close] ∧ DerivesItems ms es

section

variable {x y : Nonterminal} {p : Nat} {ls ms us : List Lexeme} {e f : Expr Unit}
  {es : List (Expr Unit)} {close : Lexeme}

theorem Derives.begins (h : Derives x ls e) : Begins x ls :=
  ⟨[], e, by simp, by rwa [List.append_nil]⟩

theorem derives_name (hp : p ≤ 11) : Derives (.level p) [.ident "a"] (.ident () "a") := by
  induction hk : 11 - p generalizing p with
  | zero =>
    obtain rfl : p = 11 := by omega
    exact .operand (.plain (.head (.leaf (.ident "a" (by decide)))))
  | succ k ih => exact .tighter (by omega) (ih (by omega) (by omega))

namespace Begins

theorem rule (h : ∀ {ls e}, Derives x ls e → Derives y ls e) (hls : Begins x ls) :
    Begins y ls := by
  obtain ⟨more, e, hmore, he⟩ := hls
  exact ⟨more, e, hmore, h he⟩

theorem nil (h : Derives x [.ident "a"] e) : Begins x [] := ⟨[.ident "a"], e, by simp [closers], h⟩

/-- A part that has begun is brought to its end, and `tail` ends the whole. -/
theorem extend (tail : List Lexeme) (htail : ∀ l ∈ tail, l ∈ closers)
    (h : ∀ {ms f}, Derives y ms f → ∃ e, Derives x (ls ++ (ms ++ tail)) e) (hus : Begins y us) :
    Begins x (ls ++ us) := by
  obtain ⟨more, f, hmore, hf⟩ := hus
  obtain ⟨e, he⟩ := h hf
  exact ⟨more ++ tail, e, List.forall_mem_append.2 ⟨hmore, htail⟩, by simpa using he⟩

theorem question (ht : Derives (.level 1) ls e) (hus : Begins .expression us) :
    Begins .expression (ls ++ [.question] ++ us) := by
  refine extend [.colon, .ident "a"] (by simp [closers]) ?_ hus
  intro ms a ha
  exact ⟨_, by simpa using Derives.choice ht ha (.test (derives_name (by decide)))⟩

theorem colon (ht : Derives (.level 1) ls e) (ha : Derives .expression ms f)
    (hus : Begins .expression us) :
    Begins .expression (ls ++ .question :: (ms ++ [.colon]) ++ us) := by
  refine extend [] (by simp) ?_ hus
  intro ns b hb
  exact ⟨_, by simpa using Derives.choice ht ha hb⟩

theorem connect (op : Connective) (hop : op.level = p) (hl : Derives (.level p) ls e)
    (hus : Begins (.level (p + 1)) us) : Begins (.level p) (ls ++ [op.lexeme] ++ us) := by
  refine extend [] (by simp) ?_ hus
  intro ms r hr
  exact ⟨_, by simpa using Derives.connect op (mem_operatorsAt_iff.2 hop) hl hr⟩

theorem unary (op : UnaryOp) (hus : Begins .unary us) : Begins .unary ([op.lexeme] ++ us) := by
  refine extend [] (by simp) ?_ hus
  intro ms f hf
  exact ⟨_, by simpa using Derives.unary op hf⟩

theorem dot (h : Derives .chain ls e) : Begins .chain (ls ++ [.dot]) :=
  ⟨[.ident "a"], _, by simp [closers], by simpa using h.member (.ident "a")⟩

theorem index (h : Derives .chain ls e) (hus : Begins .expression us) :
    Begins .chain (ls ++ [.lbracket] ++ us) := by
  refine extend [.rbracket] (by simp [closers]) ?_ hus
  intro ms k hk
  exact ⟨_, by simpa using h.index hk⟩

theorem group (hus : Begins .expression us) : Begins .primary ([.lparen] ++ us) := by
  refine extend [.rparen] (by simp [closers]) ?_ hus
  intro ms f hf
  exact ⟨f, by simpa using hf.group⟩

theorem call (h : Derives .chain ls e) (hus : BeginsItems .rparen us) :
    Begins .chain (ls ++ [.lparen] ++ us) := by
  obtain ⟨more, ms, es, hmore, heq, hes⟩ := hus
  exact ⟨more, _, hmore, by simpa [heq] using h.call hes⟩

theorem array (hus : BeginsItems .rbracket us) : Begins .primary ([.lbracket] ++ us) := by
  obtain ⟨more, ms, es, hmore, heq, hes⟩ := hus
  exact ⟨more, _, hmore, by simpa [heq] using Derives.array hes⟩

end Begins

namespace BeginsItems

theorem nil (hclose : close ∈ closers) : BeginsItems close [] :=
  ⟨[close], [], [], by simpa using hclose, rfl, .nil⟩

theorem last (hclose : close ∈ closers) (hus : Begins .expression us) : BeginsItems close us := by
  obtain ⟨more, e, hmore, he⟩ := hus
  exact ⟨more ++ [close], us ++ more, [e], List.forall_mem_append.2 ⟨hmore, by simpa using hclose⟩,
    by simp, .last he⟩

theorem more (h : Derives .expression ls e) (hus : BeginsItems close us) :
    BeginsItems close (ls ++ [.comma] ++ us) := by
  obtain ⟨more, ms, es, hmore, heq, hes⟩ := hus
  exact ⟨more, _, _, hmore, by simp [heq], .more h hes⟩

end BeginsItems

end

/-- Strings stand only where an operand is due; `due` is what is due at the beginning of the row. -/
def StringsSit : Due → List Lexeme → Prop
  | _, [] => True
  | due, l :: ls => (∀ s, l = .string s → due = .operand) ∧ StringsSit (due.next l) ls

section

variable {due : Due} {ls ms : List Lexeme} {l : Lexeme}

@[simp] theorem stringsSit_nil : StringsSit due [] := trivial

@[simp] theorem stringsSit_cons :
    StringsSit due (l :: ls) ↔ (∀ s, l = .string s → due = .operand) ∧ StringsSit (due.next l) ls :=
  .rfl

@[simp] theorem stringsSit_append :
    StringsSit due (ls ++ ms) ↔ StringsSit due ls ∧ StringsSit (due.after ls) ms := by
  induction ls generalizing due with
  | nil => simp
  | cons l ls ih => simp only [List.cons_append, stringsSit_cons, ih, Due.after_cons, and_assoc]

theorem PropertyName.ne_string {name s : String} (h : PropertyName l name) : l ≠ .string s := by
  cases h <;> simp

mutual

/-- An expression has its strings where operands are due. -/
theorem Derives.stringsSit {x : Nonterminal} {ls : List Lexeme} {e : Expr Unit} :
    Derives x ls e → StringsSit .operand ls
  | .test h | .tighter _ h | .operand h | .plain h | .head h => h.stringsSit
  | .choice ht ha hb => by
    simp [ht.stringsSit, ha.stringsSit, hb.stringsSit, ht.due_eq, ha.due_eq, Due.next]
  | .connect op _ hl hr => by
    simp [hl.stringsSit, hr.stringsSit, hl.due_eq, op.lexeme_ne (l := .string _) rfl]
  | .unary op h => by simp [h.stringsSit]
  | .member h hk => by simp [h.stringsSit, hk.ne_string]
  | .index h hk => by simp [h.stringsSit, hk.stringsSit, h.due_eq, Due.next]
  | .call h hes => by simp [h.stringsSit, hes.stringsSit, h.due_eq, Due.next]
  | .leaf _ => by simp
  | .group h => by simp [h.stringsSit, Due.next]
  | .array hes => by simp [hes.stringsSit, Due.next]

theorem DerivesItems.stringsSit {ls : List Lexeme} {es : List (Expr Unit)} :
    DerivesItems ls es → StringsSit .operand ls
  | .nil => trivial
  | .last h => h.stringsSit
  | .more h hes => by simp [h.stringsSit, hes.stringsSit, h.due_eq, Due.next]

end

end

/-- The rule by which a lexeme is refused, where `due` is what may stand in its place. -/
inductive Refuses : Due → Lexeme → String → Prop where
  | lbrace (due : Due) : Refuses due .lbrace "object-literal"
  | ellipsis (due : Due) : Refuses due .ellipsis "spread"
  | assign (due : Due) (operator : String) : Refuses due (.assign operator) "assignment"
  | plusPlus (due : Due) : Refuses due .plusPlus "update"
  | minusMinus (due : Due) : Refuses due .minusMinus "update"
  | arrow (due : Due) : Refuses due .arrow "arrow-function"
  | new : Refuses .operand (.ident "new") "new"

/-- The fault is that of the token, which is refused by a rule or else malformed; nesting is not its
cause. A string that stands for an operand has no fault. -/
inductive Blames (due : Due) (t : Token) : Fault → Prop where
  | restricted {r : Restriction} : Refuses due t.lexeme r.rule →
      Blames due t (.restricted r t.span.start)
  | malformed {cause : Malformation} : (∀ limit, cause ≠ .tooDeep limit) →
      (∀ rule, ¬ Refuses due t.lexeme rule) → (due = .operand → ∀ s, t.lexeme ≠ .string s) →
      Blames due t (.malformed cause t.span)

section

variable {due : Due} {l : Lexeme} {r : Restriction} {c : Cursor} {f : Fault}

theorem Refuses.unique {rule rule' : String} (h : Refuses due l rule) (h' : Refuses due l rule') :
    rule = rule' := by
  cases h <;> cases h' <;> rfl

theorem refuses_of_restriction? (h : l.restriction? = some r) : Refuses due l r.rule := by
  unfold Lexeme.restriction? at h
  split at h <;> cases h <;> constructor

theorem not_refuses (h : l.restriction? = none) (hnew : due = .operand → l ≠ .ident "new") :
    ∀ rule, ¬ Refuses due l rule := by
  intro rule hrule
  cases hrule with
  | new => exact hnew rfl rfl
  | _ => cases h

theorem Blames.offset_eq {t : Token} (h : Blames due t f) : f.offset = t.span.start := by
  cases h <;> rfl

theorem Blames.ne_tooDeep {t : Token} (h : Blames due t f) (limit : Nat) (span : Span) :
    f ≠ .malformed (.tooDeep limit) span := by
  cases h with
  | restricted _ => simp
  | malformed hcause _ _ =>
    rintro ⟨⟩
    exact hcause limit rfl

theorem Blames.ne_string {t : Token} (h : Blames .operand t f) (s : String) :
    t.lexeme ≠ .string s := by
  intro hs
  cases h with
  | restricted hr =>
    rw [hs] at hr
    cases hr
  | malformed _ _ hstring => exact hstring rfl s hs

/-- The fault names the rule that refuses the token. -/
theorem Blames.refuses_iff {t : Token} (h : Blames due t f) (rule : String) :
    Refuses due t.lexeme rule ↔
      ∃ r : Restriction, r.rule = rule ∧ f = .restricted r t.span.start := by
  cases h with
  | restricted hr =>
    constructor
    · exact fun hrule => ⟨_, hr.unique hrule, rfl⟩
    · rintro ⟨r, rfl, ⟨⟩⟩
      exact hr
  | malformed _ hnone _ => exact iff_of_false (hnone rule) (by rintro ⟨r, -, ⟨⟩⟩)

/-- The fault is malformed text where no rule refuses the token. -/
theorem Blames.not_refuses_iff {t : Token} (h : Blames due t f) :
    (∀ rule, ¬ Refuses due t.lexeme rule) ↔ ∃ cause, f = .malformed cause t.span := by
  cases h with
  | restricted hr => exact iff_of_false (fun hnone => hnone _ hr) (by rintro ⟨cause, ⟨⟩⟩)
  | malformed _ hnone _ => exact iff_of_true hnone ⟨_, rfl⟩

section

variable {cause : Malformation} (hcause : ∀ limit, cause ≠ .tooDeep limit)
include hcause

theorem blames_malformed (h : c.lexeme.restriction? = none)
    (hdue : due = .operand → c.lexeme ≠ .ident "new" ∧ ∀ s, c.lexeme ≠ .string s) :
    Blames due c.next (c.malformed cause) :=
  .malformed hcause (not_refuses h fun hd => (hdue hd).1) fun hd => (hdue hd).2

theorem blames_instead
    (hdue : due = .operand → c.lexeme ≠ .ident "new" ∧ ∀ s, c.lexeme ≠ .string s) :
    Blames due c.next (c.instead cause) := by
  unfold Cursor.instead
  split
  · next hr => exact .restricted (refuses_of_restriction? hr)
  · next hr => exact blames_malformed hcause hr hdue

end

theorem blames_misplaced (place : Place)
    (hdue : due = .operand → c.lexeme ≠ .ident "new" ∧ ∀ s, c.lexeme ≠ .string s) :
    Blames due c.next (c.misplaced place) := by
  unfold Cursor.misplaced
  split
  · next heof => exact blames_malformed (by simp) (by rw [heof]; rfl) hdue
  · exact blames_instead (by simp) hdue

end

end Grammar

end SigilExpr
