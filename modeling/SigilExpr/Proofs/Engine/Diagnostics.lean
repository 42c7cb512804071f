import SigilExpr.Proofs.Checked.Safety
import SigilExpr.Proofs.Engine.Names
import SigilExpr.Proofs.Engine.Restrictions
import SigilExpr.Proofs.Node.OutOfRange
import SigilExpr.Proofs.Syntax.Nesting

/-!
# Faults quote the source

Whichever stage a source fails in, the fault points at a boundary of it. What is malformed has a
stretch of the source that is not empty, or else the source has come to its end. For the lexer the
stretch is within the text that it reads, for the parser it is a token, and for what comes later it
is that of a node.

A source that is too long does NOT fail in this way: its fault points at the limit, where there may
be no boundary.
-/

set_option autoImplicit false

namespace SigilExpr

open Text SigilExpr.Parser

namespace Fault

/-- The fault points at a boundary of the source, and malformed is a stretch of it with something in
it, or the end. -/
structure PointsInto (source : List Char) (f : Fault) : Prop where
  boundary : IsBoundary source f.offset
  stretch : ∀ cause span, f = .malformed cause span →
    (∃ mid, mid ≠ [] ∧ Stretch source span mid) ∨ span = ⟨byteLength source, byteLength source⟩

variable {source mid : List Char} {span : Span} {f : Fault}

theorem pointsInto_of_stretch (cause : Malformation) (hmid : mid ≠ [])
    (h : Stretch source span mid) : PointsInto source (.malformed cause span) where
  boundary := h.isBoundary_start
  stretch := by
    rintro _ _ ⟨⟩
    exact .inl ⟨mid, hmid, h⟩

theorem Within.pointsInto (h : f.Within 0 source) : f.PointsInto source := by
  obtain ⟨cause, before, mid, after, rfl, hmid, rfl⟩ := h
  exact pointsInto_of_stretch cause hmid ⟨before, after, rfl, by simp⟩

theorem quoted_of_stretch (hmid : mid ≠ []) (h : Stretch source span mid) :
    quoted source span = String.ofList mid := by
  obtain ⟨c, cs, rfl⟩ := List.exists_cons_of_ne_nil hmid
  rw [quoted, h.slice_eq]

theorem quoted_end (source : List Char) :
    quoted source ⟨byteLength source, byteLength source⟩ = "<end of input>" := by
  have hslice : slice source (byteLength source) (byteLength source) = [] := by simp [slice]
  rw [quoted, hslice]

/-- What a fault quotes is the text where it points, or the mark of the end. -/
theorem PointsInto.quotes {cause : Malformation} (h : PointsInto source (.malformed cause span)) :
    (quoted source span ≠ "" ∧ (quoted source span).toList <+: dropBytes span.start source) ∨
      quoted source span = "<end of input>" ∧ span.start = byteLength source := by
  rcases h.stretch cause span rfl with ⟨mid, hmid, hstretch⟩ | rfl
  · rw [quoted_of_stretch hmid hstretch]
    obtain ⟨before, after, rfl, rfl⟩ := hstretch
    refine .inl ⟨by simpa using hmid, ?_⟩
    rw [List.append_assoc, dropBytes_byteLength_append, String.toList_ofList]
    exact List.prefix_append mid after
  · exact .inr ⟨quoted_end source, rfl⟩

end Fault

section

variable {limit : Nat} {source : List Char} {tokens : List Token} {e : SourceExpr} {f : Fault}

theorem Token.stretch_or_end (h : Token.ofSource source = .ok tokens) :
    ∀ t ∈ tokens, (∃ mid, mid ≠ [] ∧ Stretch source t.span mid) ∨
      t.span = ⟨byteLength source, byteLength source⟩ := by
  obtain ⟨ts, rfl, hrow⟩ := Token.ofSource_eq_ok_iff.1 h
  refine List.forall_mem_append.2 ⟨?_, List.forall_mem_singleton.2 (.inr rfl)⟩
  intro t ht
  obtain ⟨before, after, rfl⟩ := List.append_of_mem ht
  have hrow : Token.Row 0 source [] (before ++ [t] ++ after) := by simpa using hrow
  exact .inl (hrow.exists_stretch (List.cons_ne_nil t []))

theorem pointsInto_of_parse (h : Token.ofSource source = .ok tokens)
    (hparse : parse limit tokens = .error f) : f.PointsInto source := by
  have hsound := Checked.sound_inputOf (Nat.lt_succ_self limit) h
  have hfollows : Checked.Follows _ _ (parse limit tokens) _ := Checked.Input.whole_follows hsound
  rw [hparse] at hfollows
  obtain ⟨position, -, t, ht, hoffset, hspan⟩ := hfollows
  have htoken := Token.stretch_or_end h t (List.mem_of_getElem? ht)
  refine ⟨?_, fun cause span hf => hspan cause span hf ▸ htoken⟩
  rw [hoffset]
  rcases htoken with ⟨mid, -, hstretch⟩ | hend
  · exact hstretch.isBoundary_start
  · rw [hend]
    exact ⟨source, [], by simp, rfl⟩

theorem SourceExpr.pointsInto_of_ofText (h : ofText limit source = .error f) :
    f.PointsInto source := by
  rcases bind_eq_error_iff.1 h with h | ⟨tokens, htokens, h⟩
  · exact (Token.fault_of_ofText h).pointsInto
  · exact pointsInto_of_parse htokens h

theorem SourceExpr.isBoundary_of_mem_nodes (h : ofText limit source = .ok e) {n : SourceExpr}
    (hn : n ∈ e.nodes) : IsBoundary source n.span.start := by
  obtain ⟨mid, -, hstretch⟩ := exists_stretch_of_ofText h n hn
  exact hstretch.isBoundary_start

/-- A fault of an expression that has been read is that of one of its nodes. -/
theorem Compiled.pointsInto_of_parts {registry : Registry} {limits : Limits}
    (hlength : byteLength source ≤ limits.maxSourceLength)
    (h : parts registry limits source = .error f) : f.PointsInto source := by
  rcases parts_eq_error_iff.1 h with h | ⟨e, he, h⟩
  · rw [SourceExpr.ofSource, if_neg (Nat.not_lt.2 hlength)] at h
    exact SourceExpr.pointsInto_of_ofText h
  · obtain ⟨-, he⟩ := SourceExpr.ofSource_eq_ok_iff.1 he
    rcases h with h | ⟨-, h | ⟨-, h⟩⟩
    · obtain ⟨before, n, after, r, heq, -, -, rfl⟩ := SourceExpr.checkAllowed_eq_error_iff.1 h
      exact ⟨SourceExpr.isBoundary_of_mem_nodes he (n := n) (by simp [heq]), by simp⟩
    · obtain ⟨mark, name, hmem, -, -, rfl⟩ := SourceExpr.exists_ident_of_helpersIn_eq_error h
      exact ⟨SourceExpr.isBoundary_of_mem_nodes he hmem, by simp⟩
    · obtain ⟨n, hmem, -, rfl⟩ := SourceExpr.exists_of_toNode_eq_error h
      obtain ⟨mid, hmid, hstretch⟩ := SourceExpr.exists_stretch_of_ofText he _ hmem
      exact Fault.pointsInto_of_stretch _ hmid hstretch

end

/-- The error of a source that is not too long has the location of a boundary of it. If the source
is malformed, the error quotes its text from there on, or says that it has ended. -/
theorem errors_quote_the_source {registry : Registry} {limits : Limits} {source : String}
    {error : CompileError} (h : Compiled.ofSource registry limits source = .error error)
    (hlength : byteLength source.toList ≤ limits.maxSourceLength) :
    ∃ offset, IsBoundary source.toList offset ∧ offset ≤ byteLength source.toList ∧
      error.fault.location source.toList = .ofOffset source.toList offset ∧
      ∀ cause span, error.fault = .malformed cause span →
        (Fault.quoted source.toList span ≠ "" ∧
          (Fault.quoted source.toList span).toList <+: dropBytes offset source.toList) ∨
        Fault.quoted source.toList span = "<end of input>" ∧
          offset = byteLength source.toList := by
  obtain ⟨hparts, -⟩ := Compiled.ofSource_eq_error_iff.1 h
  have hpoints := Compiled.pointsInto_of_parts hlength hparts
  refine ⟨error.fault.offset, hpoints.boundary, hpoints.boundary.le_byteLength, rfl, ?_⟩
  intro cause span hfault
  rw [hfault] at hpoints ⊢
  exact hpoints.quotes

/-- A letter of two bytes, which nothing begins with, behind a blank of three bytes. -/
theorem errors_quote_the_source_sample :
    ∃ error offset, Compiled.ofSource .empty ⟨5, 1⟩ "\u3000\u00e9" = .error error ∧
      byteLength "\u3000\u00e9".toList ≤ 5 ∧ IsBoundary "\u3000\u00e9".toList offset ∧
      error.fault.location "\u3000\u00e9".toList = .ofOffset "\u3000\u00e9".toList offset ∧
      error.fault.location "\u3000\u00e9".toList = ⟨3, 1, 2⟩ ∧
      "\u00e9".toList <+: dropBytes offset "\u3000\u00e9".toList := by
  let error : CompileError :=
    ⟨"\u3000\u00e9", .malformed (.unexpectedCharacter '\u00e9') ⟨3, 5⟩⟩
  have herror : Compiled.ofSource .empty ⟨5, 1⟩ "\u3000\u00e9" = .error error := rfl
  have hlength : byteLength "\u3000\u00e9".toList ≤ 5 := by decide
  have hquoted : Fault.quoted "\u3000\u00e9".toList ⟨3, 5⟩ = "\u00e9" := rfl
  obtain ⟨offset, hboundary, -, hlocation, hquotes⟩ := errors_quote_the_source herror hlength
  rcases hquotes _ _ rfl with ⟨-, hprefix⟩ | ⟨hend, -⟩
  · exact ⟨error, offset, herror, hlength, hboundary, hlocation, rfl, hquoted ▸ hprefix⟩
  · exact absurd (hquoted.symm.trans hend) (by decide)

end SigilExpr
