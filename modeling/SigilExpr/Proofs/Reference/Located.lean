import SigilExpr.Proofs.Engine.Names
import SigilExpr.Proofs.Engine.Restrictions
import SigilExpr.Proofs.Node.OutOfRange
import SigilExpr.Proofs.Syntax.Failures
import SigilExpr.Proofs.Syntax.Placement
import SigilExpr.Proofs.Text.Location
import SigilExpr.Proofs.Token.Grouped

/-!
# Where an unresolved helper is reported

A helper that is not found is reported where its node begins. The node of a name takes the
parentheses that group the name, and no others. So the place is that of the outermost group directly
around the name, and that of the name itself where none is.

The source does NOT always have the name at that place: it may have an opening parenthesis there.
-/

set_option autoImplicit false

namespace SigilExpr

open Text Grammar SigilExpr.Parser

/-- The row of a name is the name in parentheses. -/
theorem Parser.Phrase.grouped {n : Nat} {x : Nonterminal} {ts : List Token} {e : SourceExpr}
    {name : String} : Phrase n x ts e → e.bare = .ident () name → Token.Grouped name ts
  | .test h, he | .tighter _ h, he | .operand h, he | .plain h, he | .head h, he => h.grouped he
  | .leaf h, he => by
    have hleaf := he ▸ h.bare
    generalize hl : Token.lexeme _ = l at hleaf
    cases hleaf
    exact .name hl
  | .group ho hc h, he => .group ho hc (h.grouped (by rwa [Expr.bare_withNote] at he))
  | .connect op _ _ _ _, he => by
    rw [bare_join] at he
    cases op <;> cases he
  | .choice _ _ _ _ _, he | .unary _ _ _, he | .member _ _ _, he | .index _ _ _ _, he
  | .call _ _ _ _, he | .array _ _ _, he => by cases he

section

variable {limits : Limits} {source : List Char} {f : Fault} {name : String} {offset : Nat}

/-- Reading a source finds no helper missing. -/
theorem SourceExpr.ne_unresolved_of_ofSource (h : ofSource limits source = .error f) :
    f ≠ .unresolved name offset := by
  unfold ofSource at h
  dsimp only at h
  split at h
  · cases h
    simp
  · rcases bind_eq_error_iff.1 h with h | ⟨tokens, -, h⟩
    · obtain ⟨cause, before, mid, after, -, -, rfl⟩ := Token.fault_of_ofText h
      simp
    · rcases parse_fails h with ⟨ts, d, -, -, hblames⟩ | ⟨⟨span, rfl⟩, -⟩
      · cases hblames <;> simp
      · simp

theorem Compiled.exists_ident_of_unresolved {registry : Registry}
    (h : parts registry limits source = .error (.unresolved name offset)) :
    ∃ e mark, SourceExpr.ofText limits.maxDepth source = .ok e ∧
      (.ident mark name : SourceExpr) ∈ e.nodes ∧ offset = mark.span.start := by
  rcases parts_eq_error_iff.1 h with h | ⟨e, he, h | ⟨-, h | ⟨-, h⟩⟩⟩
  · exact absurd rfl (SourceExpr.ne_unresolved_of_ofSource h)
  · obtain ⟨_, _, _, _, -, -, -, hfault⟩ := SourceExpr.checkAllowed_eq_error_iff.1 h
    cases hfault
  · obtain ⟨mark, _, hmem, -, -, hfault⟩ := SourceExpr.exists_ident_of_helpersIn_eq_error h
    obtain ⟨rfl, rfl⟩ := Fault.unresolved.inj hfault
    exact ⟨e, mark, (SourceExpr.ofSource_eq_ok_iff.1 he).2, hmem, rfl⟩
  · obtain ⟨_, -, -, hfault⟩ := SourceExpr.exists_of_toNode_eq_error h
    cases hfault

/-- The row of a name that an expression holds, and the text of the row. -/
theorem SourceExpr.exists_group_of_ofText {limit : Nat} {e : SourceExpr} {mark : Mark}
    (h : ofText limit source = .ok e) (hmem : (.ident mark name : SourceExpr) ∈ e.nodes) :
    ∃ before row after, Token.ofSource source = .ok (before ++ (row ++ after)) ∧
      Token.Grouped name row ∧
      ¬ Enclosed (before.map Token.lexeme) (after.map Token.lexeme) ∧
      ∃ xs ds zs, source = xs ++ (ds ++ zs) ∧ Parenthesized name.toList ds ∧
        (Token.cover row).start = byteLength xs ∧ mark.span.start = byteLength xs := by
  obtain ⟨ts, hrow, he, -⟩ := ofText_eq_ok_iff.1 h
  obtain ⟨before, row, after, rfl, hname, hplace⟩ := he.exists_place _ hmem
  have hgrouped := hname.grouped rfl
  refine ⟨before, row, after ++ [Token.endAt (byteLength source)], ?_, hgrouped, ?_, ?_⟩
  · exact Token.ofSource_eq_ok_iff.2 ⟨_, by simp, hrow⟩
  · rintro ⟨ls, ms, hbefore, hdue, hafter⟩
    cases after with
    | nil => cases (List.cons.inj hafter).1
    | cons t after =>
      obtain ⟨hclose, -⟩ := List.cons.inj hafter
      exact hplace ⟨ls, after.map Token.lexeme, hbefore, hdue, by rw [List.map_cons, hclose]⟩
  · obtain ⟨xs, rest, rfl, -, hrest, -⟩ := hrow.split
    obtain ⟨ys, zs, rfl, hys, -, -⟩ := hrest.split
    obtain ⟨gap, ds, gap', rfl, -, -, hds, hstart⟩ := hgrouped.exists_parenthesized hys
    rw [Nat.zero_add, ← byteLength_append] at hstart
    refine ⟨xs ++ gap, ds, gap' ++ zs, by simp, hds, hstart, ?_⟩
    rw [← hstart, ← hname.span_eq]
    rfl

end

/-- A helper that is not found is reported where its name stands in the source, together with the
parentheses directly around it that group: there the text begins with the name in that many
parentheses, and no further group is around them. The line is one more than the line breaks before,
and the column one more than the characters since the last of them. -/
theorem unresolved_is_located {registry : Registry} {limits : Limits} {source : String}
    {error : CompileError} {name : String} {offset : Nat}
    (h : Compiled.ofSource registry limits source = .error error)
    (hfault : error.fault = .unresolved name offset) :
    ∃ before row after, Token.ofSource source.toList = .ok (before ++ (row ++ after)) ∧
      Token.Grouped name row ∧
      ¬ Enclosed (before.map Token.lexeme) (after.map Token.lexeme) ∧
      ∃ xs ds zs, source.toList = xs ++ (ds ++ zs) ∧ Parenthesized name.toList ds ∧
        (Token.cover row).start = byteLength xs ∧
        error.fault.location source.toList =
          ⟨byteLength xs, 1 + xs.count '\n', 1 + (lastLine xs).length⟩ := by
  obtain ⟨hparts, -⟩ := Compiled.ofSource_eq_error_iff.1 h
  rw [hfault] at hparts
  obtain ⟨e, mark, he, hmem, hoffset⟩ := Compiled.exists_ident_of_unresolved hparts
  obtain ⟨before, row, after, htokens, hgrouped, hplace, xs, ds, zs, hsource, hds, hstart, hmark⟩ :=
    SourceExpr.exists_group_of_ofText he hmem
  refine ⟨before, row, after, htokens, hgrouped, hplace, xs, ds, zs, hsource, hds, hstart, ?_⟩
  rw [hfault, Fault.location, Fault.offset, hoffset, hmark, hsource, Location.ofOffset_eq]

/-- A helper in two pairs of parentheses, on the second line behind a blank of three bytes. -/
theorem unresolved_is_located_sample :
    ∃ error offset xs ds zs,
      Compiled.ofSource .empty ⟨32, 4⟩ "x +\n\u3000( ($later) )" = .error error ∧
      error.fault = .unresolved "$later" offset ∧
      "x +\n\u3000( ($later) )".toList = xs ++ (ds ++ zs) ∧
      Parenthesized "$later".toList ds ∧
      error.fault.location "x +\n\u3000( ($later) )".toList =
        ⟨byteLength xs, 1 + xs.count '\n', 1 + (lastLine xs).length⟩ ∧
      error.fault.location "x +\n\u3000( ($later) )".toList = ⟨7, 2, 2⟩ := by
  let error : CompileError := ⟨"x +\n\u3000( ($later) )", .unresolved "$later" 7⟩
  have herror : Compiled.ofSource .empty ⟨32, 4⟩ "x +\n\u3000( ($later) )" = .error error := rfl
  obtain ⟨_, _, _, -, -, -, xs, ds, zs, hsource, hds, -, hlocation⟩ :=
    unresolved_is_located herror rfl
  exact ⟨error, 7, xs, ds, zs, herror, rfl, hsource, hds, hlocation, rfl⟩

/-- The name need not be where its place is: in parentheses it stands behind one of them. -/
theorem unresolved_beside_its_name :
    ¬ ∀ (registry : Registry) (limits : Limits) (source : String) (error : CompileError)
        (name : String) (offset : Nat), Compiled.ofSource registry limits source = .error error →
        error.fault = .unresolved name offset →
        name.toList <+: dropBytes (error.fault.location source.toList).offset source.toList := by
  intro hall
  let error : CompileError := ⟨"($later)", .unresolved "$later" 0⟩
  have hprefix := hall .empty ⟨16, 2⟩ "($later)" error "$later" 0 rfl rfl
  revert hprefix
  decide

end SigilExpr
