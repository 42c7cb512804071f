import SigilExpr.Proofs.Session.Coherence

/-!
# Helpers that were found stay found

A compiled expression misses no helper on any registry that holds its helpers when it starts. An
engine's registry goes on holding them, whatever is done to it or to the engine, so what an engine
compiled never misses a helper on that engine.
-/

set_option autoImplicit false

namespace SigilExpr

/-- A source does not run into a missing helper. -/
def SourceError.NotMissing : SourceError → Prop
  | .compile _ => True
  | .evaluation error => ∀ name, error.cause ≠ .missingHelper name

theorem Engine.runSource_notMissing {e : Engine} {w : World} (h : e.Fresh w.registry)
    {source : String} {context : Context} {error : SourceError}
    (herror : (e.runSource source context w).1 = .error error) : error.NotMissing := by
  rw [runSource_eq_runAfresh h, runAfresh] at herror
  dsimp only at herror
  split at herror
  · cases herror
    trivial
  · next c hc =>
    have hrun := Compiled.run_neverMissing_of_grows hc context w (.refl _)
    split at herror
    · next heq =>
      cases herror
      exact hrun _ (by rw [heq])
    · cases herror

namespace Session

/-- What an engine compiled runs on that engine after any history without missing a helper. -/
theorem run_neverMissing_after [CallStack] {s : Session} {id : String} {e : HostedEngine}
    {source : String} {c : Compiled} (h : s.Coherent) (he : s.engine? id = some e)
    (hc : e.engine.compile (s.registry e.registry) source = .ok c) (later : List Command)
    {id' : String} {e' : HostedEngine} (he' : (s.after later).engine? id' = some e')
    (hnumber : e'.engine.number = e.engine.number) (context : Context) (log : List Event) :
    Compiled.NeverMissing (c.run context ⟨(s.after later).registry e'.registry, log⟩).1 := by
  obtain ⟨hregistry, -⟩ := ((h.knows he).after later).same he' hnumber
  rw [hregistry]
  exact Compiled.run_neverMissing_of_grows hc context _ (s.registry_grows_after later _)

end Session

/-- A compiled expression never runs into a missing helper: not on a registry that holds its helpers
at the start, not on the engine that compiled it, and not when an engine runs a source. -/
theorem resolved_helpers_never_go_missing [CallStack] :
    (∀ (registry : Registry) (limits : Limits) (source : String) (c : Compiled),
      Compiled.ofSource registry limits source = .ok c →
      ∀ (context : Context) (w : World), (∀ name ∈ c.helpers, w.registry.contains name = true) →
        Compiled.NeverMissing (c.run context w).1) ∧
    ∀ (before : List Session.Command) (id : String) (e : HostedEngine),
      let s := ({} : Session).after before
      s.engine? id = some e →
      (∀ (source : String) (c : Compiled),
        (e.engine.compile (s.registry e.registry) source = .ok c ∨
          (e.engine.obtain (s.registry e.registry) source).1.map Shared.compiled = .ok c) →
        ∀ (later : List Session.Command) (id' : String) (e' : HostedEngine),
          (s.after later).engine? id' = some e' → e'.engine.number = e.engine.number →
          ∀ (context : Context) (log : List Event),
            Compiled.NeverMissing
              (c.run context ⟨(s.after later).registry e'.registry, log⟩).1) ∧
      ∀ (source : String) (context : Context) (log : List Event) (error : SourceError),
        (e.engine.runSource source context ⟨s.registry e.registry, log⟩).1 = .error error →
        error.NotMissing := by
  refine ⟨fun _ _ _ _ h context w hw => Compiled.run_neverMissing h context w hw, ?_⟩
  intro before id e s he
  have hs : s.Coherent := Session.coherent_after before
  constructor
  · intro source c hc later id' e' he' hnumber context log
    rw [Engine.obtain_eq_compile (hs.fresh he), or_self] at hc
    exact Session.run_neverMissing_after hs he hc later he' hnumber context log
  · intro source context log error herror
    let w : World := ⟨s.registry e.registry, log⟩
    have hfresh : e.engine.Fresh w.registry := hs.fresh he
    exact Engine.runSource_notMissing hfresh herror

/-- A helper that registers another one and fails, on an engine that forgets what it kept. -/
theorem resolved_helpers_never_go_missing_sample :
    ∃ (before later : List Session.Command) (e : HostedEngine) (c : Compiled)
      (error : SourceError),
      let s := ({} : Session).after before
      let t := s.after later
      s.engine? "a" = some e ∧ t.engine? "a" = some e ∧ c.helpers = ["$f"] ∧
      Compiled.ofSource (s.registry e.registry) {} "$f" = .ok c ∧
      (∀ context, Compiled.NeverMissing (c.run context ⟨s.registry e.registry, []⟩).1) ∧
      (∀ context, Compiled.NeverMissing (c.run context ⟨t.registry e.registry, []⟩).1) ∧
      (e.engine.runSource "$f" (.ofEntries []) ⟨s.registry e.registry, []⟩).1 = .error error ∧
      error.NotMissing := by
  let helper : Helper := .mk none fun _ =>
    .register "$g" (.mk none fun _ => .finish (.ok .null)) fun _ => .finish (.error (.failed ""))
  let before : List Session.Command := [.create "a" .empty none, .act "a" (.register "$f" helper)]
  let later : List Session.Command := [.act "a" (.invoke "$f" []), .act "a" .forget]
  let e : HostedEngine := ⟨0, {}⟩
  let c : Compiled := ⟨"$f", .helper "$f" [], ["$f"]⟩
  let error : SourceError :=
    .evaluation ⟨.helper "$f" (.failed ""), c.source, c.transformed⟩
  let s := ({} : Session).after before
  have he : s.engine? "a" = some e := rfl
  have he' : (s.after later).engine? "a" = some e := rfl
  have hc : Compiled.ofSource (s.registry e.registry) {} "$f" = .ok c := rfl
  have herror : (e.engine.runSource "$f" (.ofEntries []) ⟨s.registry e.registry, []⟩).1 =
    .error error := rfl
  have hnames : ∀ name ∈ c.helpers, (s.registry e.registry).contains name = true := by
    intro name hname
    obtain rfl := List.mem_singleton.1 hname
    rfl
  obtain ⟨run, session⟩ := resolved_helpers_never_go_missing
  obtain ⟨later_run, source⟩ := session before "a" e he
  exact ⟨before, later, e, c, error, he, he', rfl, hc,
    fun context => run _ {} "$f" c hc context ⟨s.registry e.registry, []⟩ hnames,
    fun context => later_run "$f" c (.inl hc) later "a" e he' rfl context [], herror,
    source "$f" (.ofEntries []) [] error herror⟩

end SigilExpr
