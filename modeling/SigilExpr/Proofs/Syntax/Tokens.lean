import SigilExpr.Token.Lexer

/-!
# The tokens of a source

The end token stands last among the tokens of a source, and nowhere else.
-/

set_option autoImplicit false

namespace SigilExpr

theorem Lexeme.ofName_ne_eof (name : String) : ofName name ≠ .eof := by
  unfold ofName
  split <;> simp

theorem Lexeme.punctuation?_ne_eof {cs : List Char} {l : Lexeme} {n : Nat}
    (h : punctuation? cs = some (l, n)) : l ≠ .eof := by
  obtain ⟨entry, hmem, h⟩ := List.exists_of_findSome?_eq_some h
  have hall : ∀ entry ∈ punctuation, entry.2 ≠ .eof := by decide
  split at h
  · simp only [Option.some.injEq, Prod.mk.injEq] at h
    exact h.1 ▸ hall entry hmem
  · cases h

theorem Lexeme.scan_ne_eof {offset : Nat} {c : Char} {cs : List Char} {l : Lexeme} {n : Nat}
    (h : scan offset (c :: cs) = .ok (l, n)) : l ≠ .eof := by
  simp only [scan] at h
  split at h
  · split at h <;> simp at h
    simp [← h.1]
  · split at h
    · split at h <;> simp at h
      simp [← h.1]
    · split at h
      · simp only [Except.ok.injEq, Prod.mk.injEq] at h
        exact h.1 ▸ ofName_ne_eof _
      · split at h
        · next found hp =>
          obtain rfl := Except.ok.inj h
          exact punctuation?_ne_eof hp
        · cases h

namespace Token

/-- A row of tokens whose last one, and no other, is the end token. -/
def Ended (tokens : List Token) : Prop :=
  ∃ ts t, tokens = ts ++ [t] ∧ t.lexeme = .eof ∧ ∀ u ∈ ts, u.lexeme ≠ .eof

theorem Ended.cons {t : Token} {tokens : List Token} (h : Ended tokens) (ht : t.lexeme ≠ .eof) :
    Ended (t :: tokens) := by
  obtain ⟨ts, u, rfl, hu, hts⟩ := h
  exact ⟨t :: ts, u, rfl, hu, List.forall_mem_cons.2 ⟨ht, hts⟩⟩

theorem ended_of_ofText {cs : List Char} : ∀ {skip offset : Nat} {tokens : List Token},
    ofText skip offset cs = .ok tokens → Ended tokens := by
  induction cs with
  | nil =>
    intro skip offset tokens h
    simp only [ofText, Except.ok.injEq] at h
    exact ⟨[], _, h.symm, rfl, by simp⟩
  | cons c cs ih =>
    intro skip offset tokens h
    unfold ofText at h
    split at h
    · exact ih h
    · split at h
      · exact ih h
      · split at h
        · cases h
        · next l n hscan =>
          split at h
          · cases h
          · next rest hrest =>
            obtain rfl := Except.ok.inj h
            exact (ih hrest).cons (Lexeme.scan_ne_eof hscan)

theorem ended_of_ofSource {source : List Char} {tokens : List Token}
    (h : ofSource source = .ok tokens) : Ended tokens :=
  ended_of_ofText h

end Token

end SigilExpr
