import SigilExpr.Expr.Source
import SigilExpr.Proofs.Syntax.Acceptance
import SigilExpr.Proofs.Syntax.Words
import SigilExpr.Proofs.Token.Row

/-!
# The spans of an expression

Every node of an expression is a phrase by itself: what stands in a place of a rule may also stand
alone, with one more level of nesting at most, which the rule had taken. Its span is that of its
tokens, and so reading the text of the span alone gives back the node, moved to the front.
-/

set_option autoImplicit false

namespace SigilExpr

open Grammar Text

def Mark.back (offset : Nat) (m : Mark) : Mark := ⟨m.span.back offset, m.height⟩

namespace Expr

variable {Note Other : Type} (f : Note → Other)

theorem note_map (e : Expr Note) : (e.map f).note = f e.note := by
  cases e <;> rfl

theorem withNote_map (e : Expr Note) (n : Note) :
    (e.withNote n).map f = (e.map f).withNote (f n) := by
  cases e <;> rfl

theorem children_withNote (e : Expr Note) (n : Note) : (e.withNote n).children = e.children := by
  cases e <;> rfl

theorem note_withNote (e : Expr Note) (n : Note) : (e.withNote n).note = n := by
  cases e <;> rfl

end Expr

namespace Grammar

variable {Note Other : Type} (f : Note → Other)

theorem join_map (n : Note) (op : Connective) (l r : Expr Note) :
    (join n op l r).map f = join (f n) op (l.map f) (r.map f) := by
  cases op <;> rfl

theorem Leaf.map {n : Note} {l : Lexeme} {e : Expr Note} (h : Leaf n l e) :
    Leaf (f n) l (e.map f) := by
  cases h with
  | number x => exact .number x
  | string s => exact .string s
  | bool b => exact .bool b
  | null => exact .null
  | ident name hname => exact .ident name hname

end Grammar

namespace Token

/-- The tokens stand one after the other, and none of them is empty. -/
structure Ordered (ts : List Token) : Prop where
  nonempty : ∀ t ∈ ts, t.span.start < t.span.stop
  pairwise : ts.Pairwise fun t u => t.span.stop ≤ u.span.start

theorem Row.ordered {offset : Nat} {cs rest : List Char} {ts : List Token}
    (h : Row offset cs rest ts) : Ordered ts :=
  ⟨fun t ht => (h.bounds t ht).2.1, h.pairwise⟩

namespace Ordered

variable {ts us : List Token} {t : Token}

theorem sublist (h : Ordered ts) (hus : us.Sublist ts) : Ordered us :=
  ⟨fun t ht => h.nonempty t (hus.subset ht), h.pairwise.sublist hus⟩

theorem cover_start_le (h : Ordered ts) (ht : t ∈ ts) : (cover ts).start ≤ t.span.start := by
  cases h.pairwise with
  | nil => cases ht
  | @cons u us hu _ =>
    show u.span.start ≤ t.span.start
    rcases List.mem_cons.1 ht with rfl | ht
    · exact Nat.le_refl _
    · have hlt := h.nonempty u (by simp)
      have hle := hu t ht
      omega

theorem le_cover_stop (h : Ordered ts) (ht : t ∈ ts) : t.span.stop ≤ (cover ts).stop := by
  have hne : ts ≠ [] := List.ne_nil_of_mem ht
  have hlast : (cover ts).stop = (ts.getLast hne).span.stop := by
    rw [cover, List.getLast?_eq_some_getLast hne]
    rfl
  have hsplit := List.dropLast_append_getLast hne
  rw [hlast]
  rw [← hsplit] at ht
  rcases List.mem_append.1 ht with hmem | hmem
  · have hpairwise := hsplit.symm ▸ h.pairwise
    have hle := (List.pairwise_append.1 hpairwise).2.2 t hmem _ (List.mem_singleton.2 rfl)
    have hlt := h.nonempty _ (List.getLast_mem hne)
    omega
  · rw [List.mem_singleton.1 hmem]

end Ordered

theorem exists_cover {ts : List Token} (hne : ts ≠ []) :
    ∃ t ∈ ts, ∃ u ∈ ts, cover ts = ⟨t.span.start, u.span.stop⟩ := by
  obtain ⟨t, us, rfl⟩ := List.exists_cons_of_ne_nil hne
  refine ⟨t, by simp, _, List.getLast_mem hne, ?_⟩
  rw [cover, List.getLast?_eq_some_getLast hne]
  rfl

/-- The tokens of a stretch of a row are a row of their own. -/
theorem Row.exists_cover {offset : Nat} {cs rest : List Char} {before ts after : List Token}
    (h : Row offset cs rest (before ++ ts ++ after)) (hne : ts ≠ []) :
    ∃ xs ys zs, cs = xs ++ ys ++ zs ∧ ys ≠ [] ∧ Row (offset + byteLength xs) ys (zs ++ rest) ts ∧
      cover ts = ⟨offset + byteLength xs, offset + byteLength xs + byteLength ys⟩ := by
  obtain ⟨t, us, rfl⟩ := List.exists_cons_of_ne_nil hne
  rw [List.append_assoc] at h
  obtain ⟨xs, ys, rfl, -, hys, -⟩ := h.split
  obtain ⟨bs, ys, rfl, hstart, hys⟩ := hys.trim
  have hys : Row t.span.start ys rest ((t :: us) ++ after) := hys
  obtain ⟨ys, zs, rfl, hrow, -, hstop⟩ := hys.split
  have hoffset : offset + byteLength (xs ++ bs) = t.span.start := by
    rw [byteLength_append, ← Nat.add_assoc, hstart]
  refine ⟨xs ++ bs, ys, zs, by simp, ?_, hoffset ▸ hrow, ?_⟩
  · rintro rfl
    have hbounds := hrow.bounds t (by simp)
    rw [byteLength_nil] at hbounds
    omega
  · rw [hoffset, hstop, cover, List.getLast?_eq_some_getLast hne]
    rfl

theorem cover_back (k : Nat) (ts : List Token) : cover (ts.map (back k)) = (cover ts).back k := by
  simp only [cover, Span.back, List.head?_map, List.getLast?_map, Span.mk.injEq]
  constructor
  · cases ts.head? <;> simp [back, Span.back]
  · cases ts.getLast? <;> simp [back, Span.back]

end Token

namespace Parser

section

variable {limit n m p k : Nat} {x : Nonterminal} {ts us before after : List Token} {e : SourceExpr}
  {es : List SourceExpr}

theorem height_back (k : Nat) (e : SourceExpr) :
    SourceExpr.height (e.map (Mark.back k)) = e.height := by
  rw [SourceExpr.height, Expr.note_map]
  rfl

theorem mark_back (k : Nat) (ts : List Token) (es : List SourceExpr) :
    mark (ts.map (Token.back k)) (es.map (Expr.map (Mark.back k))) = (mark ts es).back k := by
  simp only [mark, maxHeight, List.foldl_map, height_back, Token.cover_back, Mark.back]

mutual

/-- A phrase stays one when its tokens are moved. -/
theorem Phrase.back {n : Nat} {x : Nonterminal} {ts : List Token} {e : SourceExpr} (k : Nat) :
    Phrase n x ts e → Phrase n x (ts.map (Token.back k)) (e.map (Mark.back k))
  | .test h => .test (h.back k)
  | .choice (q := q) (c := c) hq hc ht ha hb => by
    simpa [Expr.map, ← mark_back] using
      Phrase.choice (q := q.back k) (c := c.back k) hq hc (ht.back k) (ha.back k) (hb.back k)
  | .tighter hp h => .tighter hp (h.back k)
  | .connect (o := o) op ho hlevel hl hr => by
    simpa [join_map, ← mark_back] using
      Phrase.connect (o := o.back k) op ho hlevel (hl.back k) (hr.back k)
  | .operand h => .operand (h.back k)
  | .unary (o := o) op ho h => by
    simpa [Expr.map, ← mark_back] using Phrase.unary (o := o.back k) op ho (h.back k)
  | .plain h => .plain (h.back k)
  | .head h => .head (h.back k)
  | .member (d := d) (k := q) ho hk h => by
    simpa [Expr.map, ← mark_back] using
      Phrase.member (d := d.back k) (k := q.back k) ho hk (h.back k)
  | .index (o := o) (c := c) ho hq h hk => by
    simpa [Expr.map, ← mark_back] using
      Phrase.index (o := o.back k) (c := c.back k) ho hq (h.back k) (hk.back k)
  | .call (o := o) (c := c) ho hq h hes => by
    simpa [Expr.map, Expr.mapAll_eq_map, ← mark_back] using
      Phrase.call (o := o.back k) (c := c.back k) ho hq (h.back k) (hes.back k)
  | .leaf (t := t) h => by
    have hleaf := h.map (Mark.back k)
    rw [← mark_back] at hleaf
    exact .leaf (t := t.back k) hleaf
  | .group (o := o) (c := c) ho hq h => by
    have hgroup := Phrase.group (o := o.back k) (c := c.back k) ho hq (h.back k)
    rw [height_back] at hgroup
    simpa [Expr.withNote_map, Mark.back, ← Token.cover_back] using hgroup
  | .array (o := o) (c := c) ho hq hes => by
    simpa [Expr.map, Expr.mapAll_eq_map, ← mark_back] using
      Phrase.array (o := o.back k) (c := c.back k) ho hq (hes.back k)

theorem PhraseItems.back {n : Nat} {ts : List Token} {es : List SourceExpr} (k : Nat) :
    PhraseItems n ts es →
      PhraseItems n (ts.map (Token.back k)) (es.map (Expr.map (Mark.back k)))
  | .nil => .nil
  | .last h => .last (h.back k)
  | .more (c := c) hq h hes => by
    simpa using PhraseItems.more (c := c.back k) hq (h.back k) (hes.back k)

end

mutual

theorem Phrase.mono {n m : Nat} {x : Nonterminal} {ts : List Token} {e : SourceExpr}
    (hnm : n ≤ m) : Phrase n x ts e → Phrase m x ts e
  | .test h => by
    obtain ⟨m, rfl⟩ : ∃ k, m = k + 1 := ⟨m - 1, by omega⟩
    exact .test (h.mono (Nat.le_of_succ_le_succ hnm))
  | .choice hq hc ht ha hb => by
    obtain ⟨m, rfl⟩ : ∃ k, m = k + 1 := ⟨m - 1, by omega⟩
    have hnm := Nat.le_of_succ_le_succ hnm
    exact .choice hq hc (ht.mono hnm) (ha.mono hnm) (hb.mono hnm)
  | .tighter hp h => .tighter hp (h.mono hnm)
  | .connect op ho hlevel hl hr => .connect op ho hlevel (hl.mono hnm) (hr.mono hnm)
  | .operand h => .operand (h.mono hnm)
  | .unary op ho h => by
    obtain ⟨m, rfl⟩ : ∃ k, m = k + 1 := ⟨m - 1, by omega⟩
    exact .unary op ho (h.mono (Nat.le_of_succ_le_succ hnm))
  | .plain h => .plain (h.mono hnm)
  | .head h => .head (h.mono hnm)
  | .member ho hk h => .member ho hk (h.mono hnm)
  | .index ho hq h hk => .index ho hq (h.mono hnm) (hk.mono hnm)
  | .call ho hq h hes => .call ho hq (h.mono hnm) (hes.mono hnm)
  | .leaf h => .leaf h
  | .group ho hq h => .group ho hq (h.mono hnm)
  | .array ho hq hes => .array ho hq (hes.mono hnm)

theorem PhraseItems.mono {n m : Nat} {ts : List Token} {es : List SourceExpr} (hnm : n ≤ m) :
    PhraseItems n ts es → PhraseItems m ts es
  | .nil => .nil
  | .last h => .last (h.mono hnm)
  | .more hq h hes => .more hq (h.mono hnm) (hes.mono hnm)

end

theorem Phrase.ne_nil (h : Phrase n x ts e) : ts ≠ [] := by
  obtain ⟨t, us, rfl, -⟩ := h.exists_first
  simp

theorem Phrase.span_eq {n : Nat} {x : Nonterminal} {ts : List Token} {e : SourceExpr} :
    Phrase n x ts e → e.span = Token.cover ts
  | .test h | .tighter _ h | .operand h | .plain h | .head h => h.span_eq
  | .choice _ _ _ _ _ | .unary _ _ _ | .member _ _ _ | .index _ _ _ _ | .call _ _ _ _
  | .array _ _ _ => rfl
  | .connect _ _ _ _ _ => by
    rw [SourceExpr.span, note_join]
    rfl
  | .leaf h => by
    rw [SourceExpr.span, h.note_eq]
    rfl
  | .group _ _ _ => by rw [SourceExpr.span, Expr.note_withNote]

theorem Phrase.height_eq {n : Nat} {x : Nonterminal} {ts : List Token} {e : SourceExpr} :
    Phrase n x ts e → e.height = 1 + maxHeight e.children
  | .test h | .tighter _ h | .operand h | .plain h | .head h => h.height_eq
  | .choice _ _ _ _ _ | .unary _ _ _ | .member _ _ _ | .index _ _ _ _ | .call _ _ _ _
  | .array _ _ _ => rfl
  | .connect _ _ _ _ _ => by
    rw [SourceExpr.height, note_join, children_join]
    rfl
  | .leaf h => by
    rw [SourceExpr.height, h.note_eq, h.children_eq]
    rfl
  | .group _ _ h => by rw [height_withNote, Expr.children_withNote, h.height_eq]

theorem Phrase.level_le (h : Phrase n (.level p) ts e) : p ≤ 11 := by
  cases h with
  | tighter hp _ => omega
  | connect op _ hlevel _ => exact hlevel ▸ Nat.le_succ_of_le op.level_le
  | operand _ => exact Nat.le_refl 11

/-- A phrase of a tighter level is one of the loosest level. -/
theorem Phrase.loosest {p : Nat} (h : Phrase n (.level (p + 1)) ts e) :
    Phrase n (.level 1) ts e := by
  induction p with
  | zero => exact h
  | succ p ih =>
    have hp := h.level_le
    exact ih (.tighter (by omega) h)

/-- What stands in a place of a rule is an expression by itself. -/
theorem Phrase.alone (h : Phrase n x ts e) (hx : x ≠ .level 0) (hn : n + 1 ≤ m + ownNesting x) :
    Phrase m .expression ts e := by
  have hunary : ∀ {e}, Phrase n .unary ts e → Phrase (n + 1) .expression ts e :=
    fun h => .test (Phrase.operand h).loosest
  cases x with
  | expression => exact h.mono (Nat.le_of_succ_le_succ hn)
  | level p =>
    obtain ⟨p, rfl⟩ : ∃ k, p = k + 1 := Nat.exists_eq_succ_of_ne_zero (by rintro rfl; exact hx rfl)
    exact (Phrase.test h.loosest).mono hn
  | unary => exact (hunary h).mono hn
  | chain => exact (hunary (.plain h)).mono hn
  | primary => exact (hunary (.plain (.head h))).mono hn

end

/-- The children stand in the row of tokens one after the other, each a phrase with `m` levels. -/
inductive LaidOut (m : Nat) : List Token → List SourceExpr → Prop where
  | nil {ts : List Token} : LaidOut m ts []
  | cons {before ts after : List Token} {e : SourceExpr} {es : List SourceExpr} :
      Phrase m .expression ts e → LaidOut m after es → LaidOut m (before ++ (ts ++ after)) (e :: es)

namespace LaidOut

variable {m : Nat} {ts : List Token} {e : SourceExpr} {es : List SourceExpr}

theorem prepend (us : List Token) (h : LaidOut m ts es) : LaidOut m (us ++ ts) es := by
  cases h with
  | nil => exact .nil
  | cons he hes =>
    rw [← List.append_assoc]
    exact .cons he hes

theorem append (us : List Token) (h : LaidOut m ts es) : LaidOut m (ts ++ us) es := by
  induction h with
  | nil => exact .nil
  | cons he _ ih =>
    rw [List.append_assoc, List.append_assoc]
    exact .cons he ih

theorem first {us : List Token} (he : Phrase m .expression ts e) (hes : LaidOut m us es) :
    LaidOut m (ts ++ us) (e :: es) :=
  (.cons he hes : LaidOut m ([] ++ (ts ++ us)) (e :: es))

theorem single (he : Phrase m .expression ts e) : LaidOut m ts [e] := by
  simpa using first he (.nil : LaidOut m [] [])

theorem skip {t : Token} (h : LaidOut m ts es) : LaidOut m (t :: ts) es := h.prepend [t]

end LaidOut

namespace LaidOut

variable {m : Nat} {ts : List Token} {es : List SourceExpr}

theorem exists_row (h : LaidOut m ts es) :
    ∀ e ∈ es, ∃ row, row <:+: ts ∧ Phrase m .expression row e := by
  induction h with
  | nil => simp
  | @cons before row after e es he _ ih =>
    rw [List.forall_mem_cons]
    refine ⟨⟨row, ⟨before, after, by simp⟩, he⟩, ?_⟩
    intro d hd
    obtain ⟨row', hrow', hd⟩ := ih d hd
    have hafter : after <:+: before ++ (row ++ after) := ⟨before ++ row, [], by simp⟩
    exact ⟨row', hrow'.trans hafter, hd⟩

theorem within (h : LaidOut m ts es) (hts : Token.Ordered ts) :
    ∀ e : SourceExpr, e ∈ es →
      (Token.cover ts).start ≤ e.span.start ∧ e.span.stop ≤ (Token.cover ts).stop := by
  intro e he
  obtain ⟨row, hrow, he⟩ := h.exists_row e he
  obtain ⟨t, ht, u, hu, hcover⟩ := Token.exists_cover he.ne_nil
  rw [he.span_eq, hcover]
  exact ⟨hts.cover_start_le (hrow.subset ht), hts.le_cover_stop (hrow.subset hu)⟩

theorem pairwise (h : LaidOut m ts es) (hts : Token.Ordered ts) :
    es.Pairwise fun e d : SourceExpr => e.span.stop ≤ d.span.start := by
  induction h with
  | nil => exact .nil
  | @cons before row after e es he hes ih =>
    have hafter : after.Sublist (before ++ (row ++ after)) := by simp
    refine .cons ?_ (ih (hts.sublist hafter))
    intro d hd
    obtain ⟨row', hrow', hd⟩ := hes.exists_row d hd
    obtain ⟨_, -, u, hu, hcover⟩ := Token.exists_cover he.ne_nil
    obtain ⟨t, ht, _, -, hcover'⟩ := Token.exists_cover hd.ne_nil
    rw [he.span_eq, hcover, hd.span_eq, hcover']
    have hpairwise := (List.pairwise_append.1 hts.pairwise).2.1
    exact (List.pairwise_append.1 hpairwise).2.2 u hu t (hrow'.subset ht)

end LaidOut

mutual

/-- The children of a phrase are phrases of its tokens. By recursion on the phrase, a group having
the children of the expression in it. -/
theorem Phrase.laidOut {n m : Nat} {x : Nonterminal} {ts : List Token} {e : SourceExpr} :
    Phrase n x ts e → x ≠ .level 0 → n + 1 ≤ m + ownNesting x → LaidOut m ts e.children
  | .test h, _, hn => h.laidOut (by simp) (Nat.le_of_succ_le_succ hn)
  | .choice _ _ ht ha hb, _, hn =>
    have hinner := Nat.le_of_succ_le hn
    .first (ht.alone (by simp) (Nat.le_of_succ_le_succ hn))
      (.skip (.first (ha.alone (by simp) hinner) (.skip (.single (hb.alone (by simp) hinner)))))
  | .tighter _ h, _, hn => h.laidOut (by simp) hn
  | .connect op _ hlevel hl hr, hx, hn => by
    rw [children_join]
    exact .first (hl.alone hx hn) (.skip (.single (hr.alone (by simp) hn)))
  | .operand h, _, hn => h.laidOut (by simp) hn
  | .unary _ _ h, _, hn => .skip (.single (h.alone (by simp) (Nat.le_of_succ_le hn)))
  | .plain h, _, hn => h.laidOut (by simp) hn
  | .head h, _, hn => h.laidOut (by simp) hn
  | .member _ _ h, _, hn => .first (h.alone (by simp) hn) .nil
  | .index _ _ h hk, _, hn =>
    .first (h.alone (by simp) hn)
      (.skip (.append _ (.single (hk.alone (by simp) (Nat.le_succ_of_le hn)))))
  | .call _ _ h hes, _, hn =>
    .first (h.alone (by simp) hn) (.skip (.append _ (hes.laidOut (Nat.le_of_succ_le hn))))
  | .leaf h, _, _ => by
    rw [h.children_eq]
    exact .nil
  | .group _ _ h, _, hn => by
    rw [Expr.children_withNote]
    exact .skip (.append _ (h.laidOut (by simp) (Nat.le_succ_of_le hn)))
  | .array _ _ hes, _, hn => .skip (.append _ (hes.laidOut (Nat.le_of_succ_le hn)))

theorem PhraseItems.laidOut {n m : Nat} {ts : List Token} {es : List SourceExpr} :
    PhraseItems n ts es → n ≤ m → LaidOut m ts es
  | .nil, _ => .nil
  | .last h, hn => .single (h.mono hn)
  | .more _ h hes, hn => .first (h.mono hn) (.skip (hes.laidOut hn))

end

/-- Every node of a phrase is a phrase of some of its tokens. -/
theorem Phrase.exists_of_mem_nodes {limit : Nat} {ts : List Token} {e : SourceExpr}
    (h : Phrase limit .expression ts e) (hheight : e.height ≤ limit) :
    ∀ n : SourceExpr, n ∈ e.nodes →
      ∃ row, row <:+: ts ∧ Phrase limit .expression row n ∧ n.height ≤ limit := by
  apply Expr.forall_mem_nodes
  · rintro e ⟨row, hrow, he, hheight⟩ c hc
    obtain ⟨row', hrow', hc'⟩ := (he.laidOut (by simp) (Nat.le_refl _)).exists_row c hc
    exact ⟨row', hrow'.trans hrow, hc', height_le_of_mem (he.height_eq ▸ hheight) hc⟩
  · exact ⟨ts, List.infix_rfl, h, hheight⟩

end Parser

open SigilExpr.Parser

namespace SourceExpr

theorem ofText_eq_ok_iff {limit : Nat} {source : List Char} {e : SourceExpr} :
    ofText limit source = .ok e ↔
      ∃ ts, Token.Row 0 source [] ts ∧ Phrase limit .expression ts e ∧ e.height ≤ limit := by
  simp only [ofText, bind_eq_ok_iff, Token.ofSource_eq_ok_iff]
  constructor
  · rintro ⟨_, ⟨ts, rfl, hrow⟩, h⟩
    exact ⟨ts, hrow, (parse_eq_ok_iff_phrase rfl hrow.eof_notMem).1 h⟩
  · rintro ⟨ts, hrow, h⟩
    exact ⟨_, ⟨ts, rfl, hrow⟩, (parse_eq_ok_iff_phrase rfl h.1.derives.eof_notMem).2 h⟩

theorem ofSource_eq_ok_iff {limits : Limits} {source : List Char} {e : SourceExpr} :
    ofSource limits source = .ok e ↔
      byteLength source ≤ limits.maxSourceLength ∧ ofText limits.maxDepth source = .ok e := by
  by_cases hlong : limits.maxSourceLength < byteLength source
  · simp [ofSource, hlong]
  · simp [ofSource, hlong, Nat.le_of_not_lt hlong]

end SourceExpr

/-- Every node of what is read has a span that is a stretch of the source, with the spans of its
children in order within it, and reading that stretch alone gives back the node with its places
counted from there. -/
theorem spans_are_sources {limit : Nat} {source : List Char} {e : SourceExpr}
    (h : SourceExpr.ofText limit source = .ok e) :
    ∀ n : SourceExpr, n ∈ e.nodes →
      n.span.start < n.span.stop ∧ n.span.stop ≤ byteLength source ∧
      IsBoundary source n.span.start ∧ IsBoundary source n.span.stop ∧
      (∀ c : SourceExpr, c ∈ n.children →
        n.span.start ≤ c.span.start ∧ c.span.stop ≤ n.span.stop) ∧
      n.children.Pairwise (fun c d : SourceExpr => c.span.stop ≤ d.span.start) ∧
      SourceExpr.ofText limit (slice source n.span.start n.span.stop) =
        .ok (n.map (Mark.back n.span.start)) ∧
      ∀ maxLength, byteLength source ≤ maxLength →
        SourceExpr.ofSource ⟨maxLength, limit⟩ (slice source n.span.start n.span.stop) =
          .ok (n.map (Mark.back n.span.start)) := by
  intro n hn
  obtain ⟨ts, hrow, he, hheight⟩ := SourceExpr.ofText_eq_ok_iff.1 h
  obtain ⟨row, ⟨before, after, rfl⟩, hn, hheight⟩ := he.exists_of_mem_nodes hheight n hn
  have hordered : Token.Ordered row := hrow.ordered.sublist (by simp)
  obtain ⟨xs, ys, zs, rfl, hys, hrow, hcover⟩ := hrow.exists_cover hn.ne_nil
  rw [Nat.zero_add] at hrow hcover
  rw [← hn.span_eq] at hcover
  have hstretch : Stretch (xs ++ ys ++ zs) n.span ys := ⟨xs, zs, rfl, hcover⟩
  have hstart : n.span.start = byteLength xs := congrArg Span.start hcover
  have hmoved : Token.Row 0 ys [] (row.map (Token.back n.span.start)) :=
    (hstart ▸ hrow).move (.of_isPrefix List.nil_prefix) (Nat.zero_add _).symm
  have hread : SourceExpr.ofText limit ys = .ok (n.map (Mark.back n.span.start)) :=
    SourceExpr.ofText_eq_ok_iff.2 ⟨_, hmoved, hn.back _, by rwa [height_back]⟩
  have hlaid := hn.laidOut (m := limit) (by simp) (Nat.le_refl _)
  have hwithin := hlaid.within hordered
  rw [← hn.span_eq] at hwithin
  have hstop := hstretch.isBoundary_stop
  refine ⟨hstretch.start_lt_stop hys, hstop.le_byteLength, hstretch.isBoundary_start, hstop,
    hwithin, hlaid.pairwise hordered, ?_, ?_⟩
  · rw [hstretch.slice_eq, hread]
  · intro maxLength hmax
    rw [hstretch.slice_eq]
    refine SourceExpr.ofSource_eq_ok_iff.2 ⟨?_, hread⟩
    simp only [byteLength_append] at hmax
    dsimp only
    omega

/-- A name in parentheses behind a blank of three bytes. -/
theorem spans_are_sources_sample :
    ∃ e n : SourceExpr, SourceExpr.ofText 4 "x\u3000+ (a)".toList = .ok e ∧ n ∈ e.nodes ∧
      n.span = ⟨6, 9⟩ ∧ IsBoundary "x\u3000+ (a)".toList 6 ∧
      slice "x\u3000+ (a)".toList 6 9 = "(a)".toList ∧
      SourceExpr.ofText 4 (slice "x\u3000+ (a)".toList 6 9) = .ok (.ident ⟨⟨0, 3⟩, 1⟩ "a") := by
  let n : SourceExpr := .ident ⟨⟨6, 9⟩, 1⟩ "a"
  let e : SourceExpr := .binary ⟨⟨0, 9⟩, 2⟩ .add (.ident ⟨⟨0, 1⟩, 1⟩ "x") n
  have he : SourceExpr.ofText 4 "x\u3000+ (a)".toList = .ok e := rfl
  have hn : n ∈ e.nodes := by simp [e, n, Expr.nodes]
  obtain ⟨-, -, hstart, -, -, -, hread, -⟩ := spans_are_sources he n hn
  exact ⟨e, n, he, hn, rfl, hstart, rfl, hread⟩

end SigilExpr
