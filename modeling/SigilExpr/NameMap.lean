/-!
# Entries by name

A name map is a list of entries in the order of their names, no name twice. This module adds entries
and looks them up.
-/

set_option autoImplicit false

namespace SigilExpr.NameMap

variable {α : Type}

def insert (name : String) (a : α) : List (String × α) → List (String × α)
  | [] => [(name, a)]
  | (k, b) :: rest =>
    if k = name then (name, a) :: rest
    else if name < k then (name, a) :: (k, b) :: rest
    else (k, b) :: insert name a rest

def find? (name : String) : List (String × α) → Option α
  | [] => none
  | (k, a) :: rest => if k = name then some a else find? name rest

def names (entries : List (String × α)) : List String := entries.map Prod.fst

/-- The entries of a list, where of two with one name the later counts. -/
def ofList (entries : List (String × α)) : List (String × α) :=
  entries.foldl (fun acc e => insert e.1 e.2 acc) []

@[simp] theorem find?_insert_self (name : String) (a : α) (entries : List (String × α)) :
    find? name (insert name a entries) = some a := by
  induction entries with
  | nil => simp [insert, find?]
  | cons e rest ih =>
    obtain ⟨k, b⟩ := e
    by_cases h : k = name
    · simp [insert, find?, h]
    · by_cases hlt : name < k <;> simp [insert, find?, h, hlt, ih]

theorem find?_insert_of_ne {m name : String} (h : m ≠ name) (a : α)
    (entries : List (String × α)) :
    find? m (insert name a entries) = find? m entries := by
  induction entries with
  | nil => simp [insert, find?, Ne.symm h]
  | cons e rest ih =>
    obtain ⟨k, b⟩ := e
    by_cases hk : k = name
    · subst hk
      simp [insert, find?, Ne.symm h]
    · by_cases hlt : name < k <;> simp [insert, find?, hk, hlt, ih, Ne.symm h]

theorem mem_names_insert (m name : String) (a : α) (entries : List (String × α)) :
    m ∈ names (insert name a entries) ↔ m = name ∨ m ∈ names entries := by
  induction entries with
  | nil => simp [insert, names]
  | cons e rest ih =>
    obtain ⟨k, b⟩ := e
    simp only [names] at ih ⊢
    by_cases hk : k = name
    · subst hk
      simp [insert]
    · by_cases hlt : name < k
      · simp [insert, hk, hlt]
      · simp only [insert, hk, hlt, if_false, List.map_cons, List.mem_cons, ih]
        exact or_left_comm

theorem mem_of_mem_insert {e : String × α} {name : String} {a : α} {entries : List (String × α)}
    (h : e ∈ insert name a entries) : e = (name, a) ∨ e ∈ entries := by
  induction entries with
  | nil => exact .inl (List.mem_singleton.1 h)
  | cons d rest ih =>
    obtain ⟨k, b⟩ := d
    rw [insert] at h
    split at h
    · exact (List.mem_cons.1 h).imp_right (List.mem_cons_of_mem _)
    · split at h
      · exact List.mem_cons.1 h
      · rcases List.mem_cons.1 h with rfl | h
        · exact .inr List.mem_cons_self
        · exact (ih h).imp_right (List.mem_cons_of_mem _)

theorem mem_of_mem_ofList {e : String × α} {entries : List (String × α)}
    (h : e ∈ ofList entries) : e ∈ entries := by
  have hfold : ∀ entries acc : List (String × α),
      e ∈ entries.foldl (fun acc d => insert d.1 d.2 acc) acc → e ∈ acc ∨ e ∈ entries := by
    intro entries
    induction entries with
    | nil => exact fun _ h => .inl h
    | cons d rest ih =>
      intro acc h
      rcases ih _ h with h | h
      · rcases mem_of_mem_insert h with rfl | h
        · exact .inr List.mem_cons_self
        · exact .inl h
      · exact .inr (List.mem_cons_of_mem d h)
  exact (hfold entries [] h).resolve_left List.not_mem_nil

theorem mem_of_find? {name : String} {a : α} {entries : List (String × α)}
    (h : find? name entries = some a) : (name, a) ∈ entries := by
  induction entries with
  | nil => cases h
  | cons e rest ih =>
    obtain ⟨k, b⟩ := e
    rw [find?] at h
    split at h
    · next hk =>
      obtain rfl := Option.some.inj h
      exact hk ▸ List.mem_cons_self
    · exact List.mem_cons_of_mem _ (ih h)

theorem isSome_find?_iff {name : String} {entries : List (String × α)} :
    (find? name entries).isSome = true ↔ name ∈ names entries := by
  induction entries with
  | nil => simp [find?, names]
  | cons e rest ih =>
    obtain ⟨k, a⟩ := e
    simp only [names] at ih ⊢
    by_cases h : k = name
    · simp [find?, h]
    · simp [find?, h, Ne.symm h, ih]

end SigilExpr.NameMap
