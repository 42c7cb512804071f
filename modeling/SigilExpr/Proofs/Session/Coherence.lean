import SigilExpr.Proofs.Session.History

/-!
# Coherent sessions

In a coherent session every engine has a number of its own and keeps only what it would compile now.
The session at the start is coherent, and no command spoils it: registries grow, and what an engine
keeps is never compiled anew to anything else.
-/

set_option autoImplicit false

namespace SigilExpr.Session

structure Coherent (s : Session) : Prop where
  number_lt : ∀ ⦃id e⦄, s.engine? id = some e → e.engine.number < s.engineCount
  id_eq : ∀ ⦃id id' e e'⦄, s.engine? id = some e → s.engine? id' = some e' →
    e'.engine.number = e.engine.number → id' = id
  fresh : ∀ ⦃id e⦄, s.engine? id = some e → e.engine.Fresh (s.registry e.registry)

variable {s t : Session} {id : String} {e : HostedEngine}

theorem coherent_start : Coherent {} := by
  refine ⟨?_, ?_, ?_⟩
  all_goals
    intros
    contradiction

theorem Coherent.follows (h : s.Coherent) (he : s.engine? id = some e)
    (hfollows : s.Follows id e t) : t.Coherent := by
  obtain ⟨engine, hcont, hengines⟩ := hfollows.engines
  -- an engine of the later session has the number of the earlier engine of its name
  have hbefore : ∀ {id' f}, t.engine? id' = some f →
      ∃ f', s.engine? id' = some f' ∧ f'.engine.number = f.engine.number := by
    intro id' f hf
    rw [hengines id'] at hf
    split at hf
    · next heq =>
      obtain rfl := Option.some.inj hf
      exact ⟨e, heq ▸ he, hcont.number.symm⟩
    · exact ⟨f, hf, rfl⟩
  refine ⟨?_, ?_, ?_⟩
  · intro id' f hf
    obtain ⟨f', hf', hnumber⟩ := hbefore hf
    rw [hfollows.engineCount, ← hnumber]
    exact h.number_lt hf'
  · intro id₁ id₂ f₁ f₂ hf₁ hf₂ hnumber
    obtain ⟨g₁, hg₁, hn₁⟩ := hbefore hf₁
    obtain ⟨g₂, hg₂, hn₂⟩ := hbefore hf₂
    exact h.id_eq hg₁ hg₂ (hn₂.trans (hnumber.trans hn₁.symm))
  · intro id' f hf
    refine Engine.Fresh.grows ?_ (hfollows.registry f.registry)
    rw [hengines id'] at hf
    split at hf
    · obtain rfl := Option.some.inj hf
      exact hcont.fresh (h.fresh he)
    · exact h.fresh hf

theorem Coherent.creates (h : s.Coherent) (hcreates : s.Creates id t) : t.Coherent := by
  obtain ⟨new, hnew, hkept, hengines⟩ := hcreates.engines
  have hcount := hcreates.engineCount
  refine ⟨?_, ?_, ?_⟩
  · intro id' f hf
    rw [hengines id'] at hf
    split at hf
    · obtain rfl := Option.some.inj hf
      omega
    · have hlt := h.number_lt hf
      omega
  · intro id₁ id₂ f₁ f₂ hf₁ hf₂ hnumber
    rw [hengines id₁] at hf₁
    rw [hengines id₂] at hf₂
    split at hf₁ <;> split at hf₂
    · next h₁ h₂ => rw [h₁, h₂]
    · obtain rfl := Option.some.inj hf₁
      have hlt := h.number_lt hf₂
      omega
    · obtain rfl := Option.some.inj hf₂
      have hlt := h.number_lt hf₁
      omega
    · exact h.id_eq hf₁ hf₂ hnumber
  · intro id' f hf
    rw [hengines id'] at hf
    split at hf
    · obtain rfl := Option.some.inj hf
      exact .of_kept_eq_nil hkept
    · exact (h.fresh hf).grows (hcreates.registry f.registry)

theorem Coherent.moves (h : s.Coherent) (hmoves : s.Moves t) : t.Coherent := by
  cases hmoves with
  | stays => exact h
  | follows he hfollows => exact h.follows he hfollows
  | creates hcreates => exact h.creates hcreates

/-- Every session that a history leads to is coherent. -/
theorem coherent_after [CallStack] (cs : List Command) : ((({} : Session)).after cs).Coherent :=
  after_induction (fun _ _ h hmoves => h.moves hmoves) coherent_start cs

theorem Coherent.knows (h : s.Coherent) (he : s.engine? id = some e) : s.Knows e := by
  refine ⟨h.number_lt he, ?_⟩
  intro id' e' he' hnumber
  obtain rfl := h.id_eq he he' hnumber
  rw [he] at he'
  obtain rfl := Option.some.inj he'
  exact ⟨rfl, rfl⟩

end SigilExpr.Session
