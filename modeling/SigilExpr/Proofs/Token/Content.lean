import SigilExpr.Proofs.Binary64.Round
import SigilExpr.Proofs.Token.Spelling

/-!
# What words hold

A number literal has no sign, so its number has none; rounding leaves it canonical. A word that is
read as an identifier is spelled as a name. Nothing else in a word needs a condition.
-/

set_option autoImplicit false

namespace SigilExpr

open Binary64

namespace Decimal

theorem unsigned_nearest (digits : Nat) (exponent : Int) :
    (nearest false digits exponent).Unsigned := by
  unfold nearest
  split
  · exact unsigned_signedZero
  · split
    · split
      · exact unsigned_infinite
      · exact unsigned_round Nat.one_pos
    · split
      · exact unsigned_signedZero
      · exact unsigned_round (pow10_pos _)

theorem unsigned_of_unsigned? {cs : List Char} {x : Binary64} (h : unsigned? false cs = some x) :
    x.Unsigned := by
  unfold unsigned? at h
  dsimp only at h
  split at h
  · cases h
  · split at h
    · obtain rfl := Option.some.inj h
      exact unsigned_nearest _ _
    · split at h
      · obtain ⟨e, -, rfl⟩ := Option.map_eq_some_iff.1 h
        exact unsigned_nearest _ _
      · cases h

end Decimal

namespace NumberLiteral

theorem unsigned_foldl {x : Binary64} (hx : x.Unsigned) (cs : List Char) :
    (cs.foldl (fun x c => (x.mul (.ofNat 16)).add (.ofNat (hexValue c))) x).Unsigned := by
  induction cs generalizing x with
  | nil => exact hx
  | cons c cs ih =>
    have hmul := unsigned_mul hx.2 (unsigned_ofNat 16).2
    exact ih (unsigned_add hmul.2 (unsigned_ofNat (hexValue c)).2)

theorem unsigned_hexNumber (cs : List Char) : (hexNumber cs).Unsigned := by
  unfold hexNumber
  dsimp only
  split
  · exact unsigned_ofNat _
  · exact unsigned_foldl (unsigned_ofNat 0) cs

theorem unsigned_of_scan {start n : Nat} {cs : List Char} {x : Binary64}
    (h : scan start cs = .ok (x, n)) : x.Unsigned := by
  unfold scan at h
  dsimp only at h
  split at h
  · split at h
    · cases h
    · cases h
      exact unsigned_hexNumber _
  · split at h
    · cases h
    · next y hy =>
      have hunsigned := Decimal.unsigned_of_unsigned? hy
      split at h
      · split at h
        · cases h
        · cases h
          exact hunsigned
      · cases h
        exact hunsigned

end NumberLiteral

namespace Lexeme

/-- A number in the lexeme is unsigned, and an identifier is spelled as a name. -/
def Proper : Lexeme → Prop
  | .number x => x.Unsigned
  | .ident name => isName name.toList = true
  | _ => True

theorem proper_ofName {cs : List Char} (h : isName cs = true) :
    (ofName (String.ofList cs)).Proper := by
  unfold ofName
  split
  · trivial
  · trivial
  · trivial
  · simpa [Proper] using h

theorem proper_of_mem_punctuation {entry : String × Lexeme} (h : entry ∈ punctuation) :
    entry.2.Proper := by
  have hall : punctuation.all (fun entry => match entry.2 with
      | .number _ | .ident _ => false
      | _ => true) = true := rfl
  have hentry := List.all_eq_true.1 hall entry h
  cases hl : entry.2 with
  | number x | ident name => simp [hl] at hentry
  | _ => trivial

/-- What the word at the front of a text is, and which text it is if it is a name or punctuation. -/
theorem cases_of_scan {offset n : Nat} {cs : List Char} {l : Lexeme} (hne : cs ≠ [])
    (h : scan offset cs = .ok (l, n)) :
    (∃ x, NumberLiteral.scan offset cs = .ok (x, n) ∧ l = .number x) ∨ (∃ s, l = .string s) ∨
      (∃ w r, cs = w ++ r ∧ w.length = n ∧ isName w = true ∧ l = .ofName (String.ofList w)) ∨
      ∃ entry ∈ punctuation, entry.1.toList <+: cs ∧ entry.1.length = n ∧ l = entry.2 := by
  obtain ⟨c, cs, rfl⟩ := List.exists_cons_of_ne_nil hne
  simp only [scan] at h
  split at h
  · split at h
    · next x k hscan =>
      cases h
      exact .inl ⟨x, hscan, rfl⟩
    · cases h
  · split at h
    · split at h
      · next s k _ =>
        cases h
        exact .inr (.inl ⟨_, rfl⟩)
      · cases h
    · split at h
      · next hstart =>
        cases h
        refine .inr (.inr (.inl ⟨c :: cs.takeWhile isNameRest, cs.dropWhile isNameRest, ?_, rfl, ?_,
          rfl⟩))
        · rw [List.cons_append, List.takeWhile_append_dropWhile]
        · exact isName_cons_iff.2 ⟨hstart, fun _ => List.mem_takeWhile_imp⟩
      · split at h
        · next found hfound =>
          cases h
          obtain ⟨entry, hentry, hfound⟩ := List.exists_of_findSome?_eq_some hfound
          split at hfound
          · next hprefix =>
            cases hfound
            exact .inr (.inr (.inr ⟨entry, hentry, List.isPrefixOf_iff_prefix.1 hprefix, rfl, rfl⟩))
          · cases hfound
        · cases h

theorem proper_of_scan {offset n : Nat} {cs : List Char} {l : Lexeme}
    (h : scan offset cs = .ok (l, n)) : l.Proper := by
  by_cases hne : cs = []
  · subst hne
    cases h
    trivial
  · rcases cases_of_scan hne h with ⟨x, hscan, rfl⟩ | ⟨s, rfl⟩ | ⟨w, r, -, -, hw, rfl⟩ |
      ⟨entry, hentry, -, -, rfl⟩
    · exact NumberLiteral.unsigned_of_scan hscan
    · trivial
    · exact proper_ofName hw
    · exact proper_of_mem_punctuation hentry

end Lexeme

theorem Token.Row.proper {offset : Nat} {cs rest : List Char} {ts : List Token}
    (h : Row offset cs rest ts) : ∀ t ∈ ts, t.lexeme.Proper := by
  induction h with
  | nil => exact fun _ h => by cases h
  | blank _ _ ih => exact ih
  | word _ _ hscan _ ih => exact List.forall_mem_cons.2 ⟨Lexeme.proper_of_scan hscan, ih⟩

end SigilExpr
