import SigilExpr.Proofs.Engine.Compile

/-!
# What compiling asks of a registry

Compiling a source looks at a registry at one place only, where the helpers of the expression are
looked up, and there it asks for nothing but whether a name is registered. So a second registry
changes the result in one way only: a helper is not found.

Which of several faults is reported depends on the order of the stages. A fault of the tree comes
after the helpers have been found, so it is NOT reported on a registry that lacks one of them.
-/

set_option autoImplicit false

namespace SigilExpr

namespace SourceExpr

variable {e : SourceExpr} {isRegistered : String → Bool}

theorem helpersIn_of_unregistered (h : ¬ ∀ name ∈ e.helperNames, isRegistered name = true) :
    ∃ name offset, name ∈ e.helperNames ∧ isRegistered name = false ∧
      e.helpersIn isRegistered = .error (.unresolved name offset) := by
  cases hfind : e.helperNames.find? (fun name => !isRegistered name) with
  | none =>
    refine absurd ?_ h
    intro name hname
    simpa using List.find?_eq_none.1 hfind name hname
  | some name =>
    obtain ⟨offset, herror⟩ := helpersIn_eq_error hfind
    have hnot : isRegistered name = false := by simpa using List.find?_some hfind
    exact ⟨name, offset, List.mem_of_find?_eq_some hfind, hnot, herror⟩

/-- The fault of looking up helpers has the place of a name that is no registered helper. -/
theorem exists_ident_of_helpersIn_eq_error {fault : Fault}
    (h : e.helpersIn isRegistered = .error fault) :
    ∃ mark name, (.ident mark name : SourceExpr) ∈ e.nodes ∧ Reference.ofName name = .helper ∧
      isRegistered name = false ∧ fault = .unresolved name mark.span.start := by
  unfold helpersIn at h
  split at h
  · next name offset hfind =>
    obtain rfl := Except.error.inj h
    have hnot : isRegistered name = false := by simpa using List.find?_some hfind
    obtain ⟨node, hnode, huse⟩ := List.mem_filterMap.1 (List.mem_of_find?_eq_some hfind)
    split at huse
    · next mark name' =>
      split at huse
      · next hhelper =>
        obtain ⟨rfl, rfl⟩ := Prod.mk.inj (Option.some.inj huse)
        exact ⟨mark, name', hnode, hhelper, hnot, rfl⟩
      · cases huse
    · cases huse
  · cases h

/-- Looking up helpers has no other fault than that one of them is not found. -/
theorem exists_of_helpersIn_eq_error {fault : Fault}
    (h : e.helpersIn isRegistered = .error fault) :
    ∃ name offset, fault = .unresolved name offset := by
  obtain ⟨mark, name, -, -, -, rfl⟩ := exists_ident_of_helpersIn_eq_error h
  exact ⟨name, mark.span.start, rfl⟩

end SourceExpr

namespace Compiled

variable {registry r s : Registry} {limits : Limits} {source : String} {c : Compiled}

/-- The fault of a source is that of the first stage which has one. -/
theorem parts_eq_error_iff {cs : List Char} {fault : Fault} :
    parts registry limits cs = .error fault ↔
      SourceExpr.ofSource limits cs = .error fault ∨
      ∃ e, SourceExpr.ofSource limits cs = .ok e ∧
        (e.checkAllowed = .error fault ∨
        e.checkAllowed = .ok () ∧
          (e.helpersIn registry.contains = .error fault ∨
          (∀ name ∈ e.helperNames, registry.contains name = true) ∧ e.toNode = .error fault)) := by
  simp only [parts, bind_eq_error_iff, SourceExpr.helpersIn_eq_ok_iff]
  constructor
  · rintro (h | ⟨e, he, h | ⟨⟨⟩, hallowed, h | ⟨names, ⟨hall, rfl⟩, h | ⟨root, -, h⟩⟩⟩⟩)
    · exact .inl h
    · exact .inr ⟨e, he, .inl h⟩
    · exact .inr ⟨e, he, .inr ⟨hallowed, .inl h⟩⟩
    · exact .inr ⟨e, he, .inr ⟨hallowed, .inr ⟨hall, h⟩⟩⟩
    · cases h
  · rintro (h | ⟨e, he, h | ⟨hallowed, h | ⟨hall, h⟩⟩⟩)
    · exact .inl h
    · exact .inr ⟨e, he, .inl h⟩
    · exact .inr ⟨e, he, .inr ⟨(), hallowed, .inl h⟩⟩
    · exact .inr ⟨e, he, .inr ⟨(), hallowed, .inr ⟨_, ⟨hall, rfl⟩, .inl h⟩⟩⟩

theorem ofSource_eq_error_iff {error : CompileError} :
    ofSource registry limits source = .error error ↔
      parts registry limits source.toList = .error error.fault ∧ error.source = source := by
  unfold ofSource
  constructor
  · intro h
    split at h
    · cases h
    · next hparts =>
      obtain rfl := Except.error.inj h
      exact ⟨hparts, rfl⟩
  · rintro ⟨hparts, rfl⟩
    rw [hparts]

/-- What compiles against a registry compiles to the same against any that has its helpers. -/
theorem parts_of_registered {cs : List Char} {root : Node} {helpers : List String}
    (h : parts r limits cs = .ok (root, helpers))
    (hs : ∀ name ∈ helpers, s.contains name = true) :
    parts s limits cs = .ok (root, helpers) := by
  obtain ⟨e, he, hallowed, -, hnode, rfl⟩ := parts_eq_ok_iff.1 h
  have hall : ∀ name ∈ e.helperNames, s.contains name = true :=
    fun name hname => hs name ((Text.mem_nameSet name _).2 hname)
  exact parts_eq_ok_iff.2 ⟨e, he, hallowed, hall, hnode, rfl⟩

/-- Against a registry that lacks one of its helpers it does not compile. -/
theorem parts_of_unregistered {cs : List Char} {root : Node} {helpers : List String}
    (h : parts r limits cs = .ok (root, helpers))
    (hs : ¬ ∀ name ∈ helpers, s.contains name = true) :
    ∃ name offset, name ∈ helpers ∧ s.contains name = false ∧
      parts s limits cs = .error (.unresolved name offset) := by
  obtain ⟨e, he, hallowed, -, -, rfl⟩ := parts_eq_ok_iff.1 h
  simp only [Text.mem_nameSet] at hs ⊢
  obtain ⟨name, offset, hname, hnot, herror⟩ := SourceExpr.helpersIn_of_unregistered hs
  exact ⟨name, offset, hname, hnot, parts_eq_error_iff.2 (.inr ⟨e, he, .inr ⟨hallowed, .inl herror⟩⟩)⟩

/-- A fault that is not about a helper does not go away when the registry grows. -/
theorem parts_error_grows {cs : List Char} {fault : Fault} (hrs : r.GrowsTo s)
    (h : parts r limits cs = .error fault)
    (hfault : ∀ name offset, fault ≠ .unresolved name offset) :
    parts s limits cs = .error fault := by
  rw [parts_eq_error_iff] at h ⊢
  rcases h with h | ⟨e, he, h | ⟨hallowed, h | ⟨hall, h⟩⟩⟩
  · exact .inl h
  · exact .inr ⟨e, he, .inl h⟩
  · obtain ⟨name, offset, rfl⟩ := SourceExpr.exists_of_helpersIn_eq_error h
    exact absurd rfl (hfault name offset)
  · exact .inr ⟨e, he, .inr ⟨hallowed, .inr ⟨fun name hname => hrs (hall name hname), h⟩⟩⟩

end Compiled

/-- Of a registry compiling sees only which names it holds. What compiles against one registry
compiles to the same against another that has its helpers, and otherwise the fault is one of its
helpers that the other lacks. A fault that is not about a helper is the same for every registry with
these names and more. -/
theorem compiling_reads_names_only (r s : Registry) (limits : Limits) (source : String) :
    (∀ c, Compiled.ofSource r limits source = .ok c →
      ((∀ name ∈ c.helpers, s.contains name = true) →
        Compiled.ofSource s limits source = .ok c) ∧
      ((¬ ∀ name ∈ c.helpers, s.contains name = true) →
        ∃ name offset, name ∈ c.helpers ∧ s.contains name = false ∧
          Compiled.ofSource s limits source = .error ⟨source, .unresolved name offset⟩)) ∧
    ∀ error, Compiled.ofSource r limits source = .error error →
      (∀ name offset, error.fault ≠ .unresolved name offset) → r.names ⊆ s.names →
      Compiled.ofSource s limits source = .error error := by
  constructor
  · intro c hc
    obtain ⟨hparts, hsource⟩ := Compiled.ofSource_eq_ok_iff.1 hc
    constructor
    · intro hall
      exact Compiled.ofSource_eq_ok_iff.2 ⟨Compiled.parts_of_registered hparts hall, hsource⟩
    · intro hmissing
      obtain ⟨name, offset, hname, hnot, herror⟩ :=
        Compiled.parts_of_unregistered hparts hmissing
      exact ⟨name, offset, hname, hnot, Compiled.ofSource_eq_error_iff.2 ⟨herror, rfl⟩⟩
  · intro error herror hfault hnames
    obtain ⟨hparts, hsource⟩ := Compiled.ofSource_eq_error_iff.1 herror
    have hgrows : r.GrowsTo s := .of_names_subset hnames
    exact Compiled.ofSource_eq_error_iff.2
      ⟨Compiled.parts_error_grows hgrows hparts hfault, hsource⟩

/-- A helper that is replaced, one that is missing, and a number that no value can hold in a source
that calls a helper. -/
theorem compiling_reads_names_only_sample :
    ∃ (r s : Registry) (c : Compiled) (offset : Nat) (error : CompileError),
      Compiled.ofSource r ⟨16, 2⟩ "$f(x)" = .ok c ∧ c.helpers = ["$f"] ∧
      Compiled.ofSource s ⟨16, 2⟩ "$f(x)" = .ok c ∧ s.names ≠ r.names ∧
      Compiled.ofSource .empty ⟨16, 2⟩ "$f(x)" = .error ⟨"$f(x)", .unresolved "$f" offset⟩ ∧
      error.fault = .malformed .numberOutOfRange ⟨3, 8⟩ ∧
      Compiled.ofSource r ⟨16, 2⟩ "$f(1e999)" = .error error ∧
      Compiled.ofSource s ⟨16, 2⟩ "$f(1e999)" = .error error := by
  let helper : Helper := .mk none fun _ => .finish (.ok .null)
  let other : Helper := .mk none fun _ => .finish (.error (.failed ""))
  let r : Registry := ⟨[("$f", helper)]⟩
  let s : Registry := ⟨[("$f", other), ("$g", helper)]⟩
  let c : Compiled := ⟨"$f(x)", .helper "$f" [.contextRead "x"], ["$f"]⟩
  let error : CompileError := ⟨"$f(1e999)", .malformed .numberOutOfRange ⟨3, 8⟩⟩
  have hc : Compiled.ofSource r ⟨16, 2⟩ "$f(x)" = .ok c := rfl
  let e : SourceExpr :=
    .call ⟨⟨0, 9⟩, 2⟩ (.ident ⟨⟨0, 2⟩, 1⟩ "$f") [.number ⟨⟨3, 8⟩, 1⟩ (.infinite false)]
  have he : SourceExpr.ofSource ⟨16, 2⟩ "$f(1e999)".toList = .ok e := by rfl
  have hregistered : ∀ name ∈ e.helperNames, r.contains name = true := by
    intro name hname
    obtain rfl : name = "$f" := List.mem_singleton.1 hname
    rfl
  have hparts : Compiled.parts r ⟨16, 2⟩ "$f(1e999)".toList = .error error.fault :=
    Compiled.parts_eq_error_iff.2 (.inr ⟨e, he, .inr ⟨rfl, .inr ⟨hregistered, rfl⟩⟩⟩)
  have herror : Compiled.ofSource r ⟨16, 2⟩ "$f(1e999)" = .error error :=
    Compiled.ofSource_eq_error_iff.2 ⟨hparts, rfl⟩
  have hall : ∀ name ∈ c.helpers, s.contains name = true := by decide
  have hnone : ¬ ∀ name ∈ c.helpers, Registry.empty.contains name = true := by decide
  have hnames : r.names ⊆ s.names := by simp [r, s, Registry.names, NameMap.names]
  obtain ⟨same, -⟩ := (compiling_reads_names_only r s ⟨16, 2⟩ "$f(x)").1 c hc
  obtain ⟨-, missing⟩ := (compiling_reads_names_only r .empty ⟨16, 2⟩ "$f(x)").1 c hc
  obtain ⟨name, offset, hname, -, hmissing⟩ := missing hnone
  obtain rfl : name = "$f" := List.mem_singleton.1 hname
  obtain ⟨-, alike⟩ := compiling_reads_names_only r s ⟨16, 2⟩ "$f(1e999)"
  exact ⟨r, s, c, offset, error, hc, rfl, same hall, by simp [r, s, Registry.names, NameMap.names],
    hmissing, rfl, herror, alike error herror (by simp [error]) hnames⟩

end SigilExpr
