import SigilExpr.Proofs.Helper.Growth

/-!
# What a registration does

A registration fails for a name that no helper may have, and one of a helper under its own name also
for want of a name; then it makes no registry. One that succeeds binds its own name and leaves every
other name as it was. So all names in a registry that registrations made of the empty one are names
for helpers. The registry with the helpers for dates is such a one, although it is NOT made through
the check.
-/

set_option autoImplicit false

namespace SigilExpr.Registry

/-- A registry is another one but for the binding of one name. -/
structure Binds (r : Registry) (name : String) (h : Helper) (s : Registry) : Prop where
  find?_self : s.find? name = some h
  find?_of_ne : ∀ ⦃m⦄, m ≠ name → s.find? m = r.find? m
  mem_names_iff : ∀ m, m ∈ s.names ↔ m = name ∨ m ∈ r.names

variable {r s : Registry} {name : String}

theorem binds_insert (r : Registry) (name : String) (h : Helper) :
    r.Binds name h ⟨NameMap.insert name h r.entries⟩ where
  find?_self := NameMap.find?_insert_self name h r.entries
  find?_of_ne _ hm := NameMap.find?_insert_of_ne hm h r.entries
  mem_names_iff m := NameMap.mem_names_insert m name h r.entries

theorem register_of_isSigilName (hname : isSigilName name = true) (h : Helper) :
    ∃ s, r.register name h = .ok s ∧ r.Binds name h s :=
  ⟨_, if_pos hname, r.binds_insert name h⟩

theorem register_of_not_isSigilName (hname : isSigilName name = false) (h : Helper) :
    r.register name h = .error (.invalidName name) :=
  if_neg (Bool.eq_false_iff.1 hname)

theorem isSigilName_of_register {h : Helper} (hs : r.register name h = .ok s) :
    isSigilName name = true ∧ r.Binds name h s := by
  cases hname : isSigilName name with
  | true =>
    obtain ⟨t, ht, hbinds⟩ := register_of_isSigilName (r := r) hname h
    obtain rfl := Except.ok.inj (ht.symm.trans hs)
    exact ⟨rfl, hbinds⟩
  | false =>
    rw [register_of_not_isSigilName hname h] at hs
    cases hs

theorem ExtendsTo.forall_isSigilName (h : r.ExtendsTo s)
    (hr : ∀ name ∈ r.names, isSigilName name = true) :
    ∀ name ∈ s.names, isSigilName name = true := by
  induction h with
  | refl => exact hr
  | register _ ht ih =>
    obtain ⟨hname, hbinds⟩ := isSigilName_of_register ht
    intro m hm
    rcases (hbinds.mem_names_iff m).1 hm with rfl | hm
    · exact hname
    · exact ih m hm

/-- To set entries under names for helpers is to register them. -/
theorem extendsTo_foldl_insert (r : Registry) (entries : List (String × Helper))
    (hall : ∀ e ∈ entries, isSigilName e.1 = true) :
    r.ExtendsTo ⟨entries.foldl (fun acc e => NameMap.insert e.1 e.2 acc) r.entries⟩ := by
  induction entries generalizing r with
  | nil => exact .refl
  | cons e rest ih =>
    obtain ⟨he, hrest⟩ := List.forall_mem_cons.1 hall
    exact (ExtendsTo.single (if_pos he)).trans (ih ⟨NameMap.insert e.1 e.2 r.entries⟩ hrest)

theorem isSigilName_helperName (p : Date.Period) : isSigilName p.helperName = true := by
  cases p <;> rfl

theorem empty_extendsTo_standard : empty.ExtendsTo standard := by
  refine empty.extendsTo_foldl_insert _ ?_
  intro e he
  obtain ⟨p, -, rfl⟩ := List.mem_map.1 he
  exact isSigilName_helperName p

end SigilExpr.Registry
