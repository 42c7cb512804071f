import Mathlib.Data.String.Basic
import SigilExpr.NameMap

/-!
# Maps and parts of a name map

To set an entry and to map all entries may be done in either order, and so may to set an entry and
to take the part under some of the names, for a name map that is in order stays in order. Two maps
that are in order are alike entry by entry if they are alike name by name.
-/

set_option autoImplicit false

namespace SigilExpr.NameMap

variable {α β : Type}

theorem find?_map (f : α → β) (name : String) (entries : List (String × α)) :
    find? name (entries.map fun p => (p.1, f p.2)) = (find? name entries).map f := by
  induction entries with
  | nil => rfl
  | cons p rest ih =>
    by_cases h : p.1 = name
    · simp [find?, h]
    · simp [find?, h, ih]

theorem insert_map (f : α → β) (name : String) (a : α) (entries : List (String × α)) :
    (insert name a entries).map (fun p => (p.1, f p.2)) =
      insert name (f a) (entries.map fun p => (p.1, f p.2)) := by
  induction entries with
  | nil => rfl
  | cons p rest ih =>
    by_cases h : p.1 = name
    · simp [insert, h]
    · by_cases hlt : name < p.1 <;> simp [insert, h, hlt, ih]

/-- The names are in strictly ascending order. -/
def InOrder (entries : List (String × α)) : Prop := entries.Pairwise fun d e => d.1 < e.1

/-- The entries whose names pass a test. -/
def part (test : String → Bool) (entries : List (String × α)) : List (String × α) :=
  entries.filter fun e => test e.1

variable {name : String} {entries : List (String × α)} {test : String → Bool}

theorem InOrder.insert (h : InOrder entries) (name : String) (a : α) :
    InOrder (insert name a entries) := by
  induction entries with
  | nil => exact List.pairwise_singleton _ _
  | cons e rest ih =>
    obtain ⟨k, b⟩ := e
    obtain ⟨hk, hrest⟩ := List.pairwise_cons.1 h
    rw [NameMap.insert]
    split
    · next heq =>
      subst heq
      exact List.pairwise_cons.2 ⟨hk, hrest⟩
    · next hne =>
      split
      · next hlt =>
        refine List.pairwise_cons.2 ⟨?_, h⟩
        intro d hd
        rcases List.mem_cons.1 hd with rfl | hd
        · exact hlt
        · exact lt_trans hlt (hk d hd)
      · next hnlt =>
        refine List.pairwise_cons.2 ⟨?_, ih hrest⟩
        intro d hd
        rcases mem_of_mem_insert hd with rfl | hd
        · exact lt_of_le_of_ne (not_lt.1 hnlt) hne
        · exact hk d hd

theorem insert_of_lt (h : ∀ e ∈ entries, name < e.1) (a : α) :
    insert name a entries = (name, a) :: entries := by
  cases entries with
  | nil => rfl
  | cons e rest =>
    have hlt := h e List.mem_cons_self
    rw [insert, if_neg (ne_of_gt hlt), if_pos hlt]

theorem find?_part (htest : test name = true) :
    find? name (part test entries) = find? name entries := by
  induction entries with
  | nil => rfl
  | cons e rest ih =>
    obtain ⟨k, b⟩ := e
    by_cases hk : k = name
    · subst hk
      simp [part, find?, htest]
    · cases htest' : test k with
      | true => simpa [part, find?, htest', hk] using ih
      | false => simpa [part, find?, htest', hk] using ih

theorem part_insert (h : InOrder entries) (htest : test name = true) (a : α) :
    part test (insert name a entries) = insert name a (part test entries) := by
  induction entries with
  | nil => simp [part, insert, htest]
  | cons e rest ih =>
    obtain ⟨k, b⟩ := e
    obtain ⟨hk, hrest⟩ := List.pairwise_cons.1 h
    have ih := ih hrest
    by_cases heq : k = name
    · subst heq
      simp [part, insert, htest]
    · by_cases hlt : name < k
      · have hall : ∀ e ∈ part test ((k, b) :: rest), name < e.1 := by
          intro e he
          rcases List.mem_cons.1 (List.mem_of_mem_filter he) with rfl | he
          · exact hlt
          · exact lt_trans hlt (hk e he)
        rw [insert_of_lt hall, insert, if_neg heq, if_pos hlt]
        exact List.filter_cons_of_pos htest
      · cases htest' : test k with
        | true => simpa [part, insert, htest', heq, hlt] using ih
        | false => simpa [part, insert, htest', heq, hlt] using ih

theorem part_insert_of_eq_false (htest : test name = false) (a : α) :
    part test (insert name a entries) = part test entries := by
  induction entries with
  | nil => simp [part, insert, htest]
  | cons e rest ih =>
    obtain ⟨k, b⟩ := e
    by_cases heq : k = name
    · subst heq
      simp [part, insert, htest]
    · by_cases hlt : name < k
      · simp [part, insert, htest, heq, hlt]
      · cases htest' : test k with
        | true => simpa [part, insert, htest', heq, hlt] using ih
        | false => simpa [part, insert, htest', heq, hlt] using ih

theorem names_eq_of_forall₂ {R : α → β → Prop} {xs : List (String × α)} {ys : List (String × β)}
    (h : List.Forall₂ (fun d e => d.1 = e.1 ∧ R d.2 e.2) xs ys) : names xs = names ys := by
  induction h with
  | nil => rfl
  | cons hd _ ih => exact congrArg₂ List.cons hd.1 ih

theorem rel_of_forall₂ {R : α → β → Prop} {xs : List (String × α)} {ys : List (String × β)}
    {a : α} {b : β} (h : List.Forall₂ (fun d e => d.1 = e.1 ∧ R d.2 e.2) xs ys)
    (ha : find? name xs = some a) (hb : find? name ys = some b) : R a b := by
  induction h with
  | nil => cases ha
  | @cons d e xs ys hd _ ih =>
    obtain ⟨hname, hrel⟩ := hd
    rw [find?] at ha hb
    by_cases hk : d.1 = name
    · rw [if_pos hk] at ha
      rw [if_pos (hname ▸ hk)] at hb
      obtain rfl := Option.some.inj ha
      obtain rfl := Option.some.inj hb
      exact hrel
    · rw [if_neg hk] at ha
      rw [if_neg (hname ▸ hk)] at hb
      exact ih ha hb

/-- The first name of a map that is in order comes before all others. -/
theorem InOrder.le_of_mem {e : String × α} (h : InOrder (e :: entries))
    (hname : name ∈ names (e :: entries)) : e.1 ≤ name := by
  rcases List.mem_cons.1 hname with rfl | hname
  · exact le_rfl
  · obtain ⟨d, hd, rfl⟩ := List.mem_map.1 hname
    exact le_of_lt ((List.pairwise_cons.1 h).1 d hd)

theorem InOrder.ne_of_mem {e : String × α} (h : InOrder (e :: entries))
    (hname : name ∈ names entries) : name ≠ e.1 := by
  obtain ⟨d, hd, rfl⟩ := List.mem_map.1 hname
  exact ne_of_gt ((List.pairwise_cons.1 h).1 d hd)

/-- Two maps that are in order are alike entry by entry as soon as they have the same names and are
alike under each. -/
theorem forall₂_iff {R : α → β → Prop} {xs : List (String × α)} {ys : List (String × β)}
    (hxs : InOrder xs) (hys : InOrder ys) :
    List.Forall₂ (fun d e => d.1 = e.1 ∧ R d.2 e.2) xs ys ↔
      (∀ name, name ∈ names xs ↔ name ∈ names ys) ∧
      ∀ name a b, find? name xs = some a → find? name ys = some b → R a b := by
  refine ⟨fun h => ⟨fun name => names_eq_of_forall₂ h ▸ Iff.rfl, fun name a b => rel_of_forall₂ h⟩,
    ?_⟩
  rintro ⟨hnames, hrel⟩
  induction xs generalizing ys with
  | nil =>
    cases ys with
    | nil => exact .nil
    | cons e ys => exact absurd ((hnames e.1).2 List.mem_cons_self) List.not_mem_nil
  | cons d xs ih =>
    cases ys with
    | nil => exact absurd ((hnames d.1).1 List.mem_cons_self) List.not_mem_nil
    | cons e ys =>
      -- The two first names are each the least of one and the same set.
      have hname : d.1 = e.1 :=
        le_antisymm (hxs.le_of_mem ((hnames e.1).2 List.mem_cons_self))
          (hys.le_of_mem ((hnames d.1).1 List.mem_cons_self))
      have hrest : ∀ name, name ∈ names xs ↔ name ∈ names ys := by
        intro name
        constructor
        · intro h
          have hne := hname ▸ hxs.ne_of_mem h
          exact (List.mem_cons.1 ((hnames name).1 (List.mem_cons_of_mem _ h))).resolve_left hne
        · intro h
          have hne := hname ▸ hys.ne_of_mem h
          exact (List.mem_cons.1 ((hnames name).2 (List.mem_cons_of_mem _ h))).resolve_left hne
      refine .cons ⟨hname, hrel d.1 d.2 e.2 (if_pos rfl) (if_pos hname.symm)⟩
        (ih hxs.of_cons hys.of_cons hrest ?_)
      intro name a b ha hb
      have hmem : name ∈ names xs := isSome_find?_iff.1 (Option.isSome_iff_exists.2 ⟨a, ha⟩)
      have hne := hxs.ne_of_mem hmem
      exact hrel name a b ((if_neg hne.symm).trans ha) ((if_neg (hname ▸ hne.symm)).trans hb)

end SigilExpr.NameMap
