import SigilExpr.Proofs.Node.Beginnings

/-!
# The text of a compiled tree tells it apart

No text of a tree begins with that of another one: what stands first decides the form, and a tree
ends where a blank, a comma or a closing bracket follows it. By induction on the trees inside a
chain, two lowered trees with one text have one chain, and so they are one tree once the calls that
a chain cannot tell apart are identified.
-/

set_option autoImplicit false

namespace SigilExpr

open Text Decimal

/-- What follows ends a tree, if anything does. -/
def Closes (u : List Char) : Prop := ∀ c ∈ u.head?, c = ' ' ∨ c = ')' ∨ c = ',' ∨ c = ']'

/-- What follows makes no head and no name longer. -/
structure Follows (u : List Char) : Prop where
  ends : Numeral.Ends u
  stops : Stops isNameRest u

theorem Closes.follows {u : List Char} (h : Closes u) : Follows u := by
  cases u with
  | nil => exact ⟨⟨rfl, fun _ h => by cases h⟩, fun _ h => by cases h⟩
  | cons c u =>
    rcases h c rfl with rfl | rfl | rfl | rfl
    all_goals exact ⟨⟨rfl, stops_cons rfl _⟩, stops_cons rfl _⟩

namespace Node

variable {n : Node} {u v : List Char}

/-- A text that begins with that of the tree begins with that of no other one, up to calls that
cannot be told apart, if the tree is seen to end. -/
def Legible (n : Node) : Prop :=
  ∀ {m : Node} {u v : List Char}, m.Lowered → Closes u → Closes v → n.chars ++ u = m.chars ++ v →
    n.identified = m.identified ∧ u = v

theorem closes_cons {c : Char} (hc : c = ' ' ∨ c = ')' ∨ c = ',' ∨ c = ']') (u : List Char) :
    Closes (c :: u) := by
  rintro _ ⟨⟩
  exact hc

/-- Two trees with one character behind each that ends them. -/
theorem Legible.append_inj {m : Node} (hn : n.Legible) (hm : m.Lowered) {c : Char}
    (hc : c = ' ' ∨ c = ')' ∨ c = ',' ∨ c = ']') (h : n.chars ++ c :: u = m.chars ++ c :: v) :
    n.identified = m.identified ∧ u = v := by
  obtain ⟨hnm, hrest⟩ := hn hm (closes_cons hc u) (closes_cons hc v) h
  exact ⟨hnm, (List.cons.inj hrest).2⟩

theorem closes_restChars (ns : List Node) {c : Char} (hc : c = ')' ∨ c = ']') (u : List Char) :
    Closes (restChars ns ++ c :: u) := by
  cases ns with
  | nil => exact closes_cons (by tauto) u
  | cons n ns => exact closes_cons (.inr (.inr (.inl rfl))) _

section Items

variable {ns ms : List Node} {c : Char}

theorem restChars_append_inj (hns : ∀ n ∈ ns, Legible n) (hms : ∀ m ∈ ms, Lowered m)
    (hc : c = ')' ∨ c = ']') (h : restChars ns ++ c :: u = restChars ms ++ c :: v) :
    identifiedAll ns = identifiedAll ms ∧ u = v := by
  induction ns generalizing ms with
  | nil =>
    cases ms with
    | nil => exact ⟨rfl, (List.cons.inj h).2⟩
    | cons m ms =>
      have hcomma := (List.cons.inj h).1
      rcases hc with rfl | rfl <;> cases hcomma
  | cons n ns ih =>
    cases ms with
    | nil =>
      have hcomma := (List.cons.inj h).1
      rcases hc with rfl | rfl <;> cases hcomma
    | cons m ms =>
      obtain ⟨hn, hns⟩ := List.forall_mem_cons.1 hns
      obtain ⟨hm, hms⟩ := List.forall_mem_cons.1 hms
      have h : n.chars ++ (restChars ns ++ c :: u) = m.chars ++ (restChars ms ++ c :: v) := by
        simpa [restChars] using h
      obtain ⟨hnm, hrest⟩ := hn hm (closes_restChars ns hc u) (closes_restChars ms hc v) h
      obtain ⟨hall, huv⟩ := ih hns hms hrest
      exact ⟨by rw [identifiedAll, identifiedAll, hnm, hall], huv⟩

theorem listChars_append_inj (hns : ∀ n ∈ ns, Legible n) (hns' : ∀ n ∈ ns, Lowered n)
    (hms : ∀ m ∈ ms, Lowered m) (hc : c = ')' ∨ c = ']')
    (h : listChars ns ++ c :: u = listChars ms ++ c :: v) :
    identifiedAll ns = identifiedAll ms ∧ u = v := by
  cases ns with
  | nil =>
    cases ms with
    | nil => exact ⟨rfl, (List.cons.inj h).2⟩
    | cons m ms =>
      rw [listChars, listChars, List.append_assoc] at h
      exact absurd h ((hms m List.mem_cons_self).not_close hc)
  | cons n ns =>
    cases ms with
    | nil =>
      rw [listChars, listChars, List.append_assoc] at h
      exact absurd h.symm ((hns' n List.mem_cons_self).not_close hc)
    | cons m ms =>
      obtain ⟨hn, hns⟩ := List.forall_mem_cons.1 hns
      obtain ⟨hm, hms⟩ := List.forall_mem_cons.1 hms
      rw [listChars, listChars, List.append_assoc, List.append_assoc] at h
      obtain ⟨hnm, hrest⟩ := hn hm (closes_restChars ns hc u) (closes_restChars ms hc v) h
      obtain ⟨hall, huv⟩ := restChars_append_inj hns hms hc hrest
      exact ⟨by rw [identifiedAll, identifiedAll, hnm, hall], huv⟩

end Items

end Node

namespace Head

variable {h k : Head} {l r t a b : Node} {u v : List Char}

section Brackets

variable {op op' : UnaryOp} {con con' : Connective} {e e' l' r' t' a' b' : Node}

theorem unary_append (op : UnaryOp) (e : Node) (u : List Char) : chars (.unary op e) ++ u =
    '(' :: ((Node.unaryText op).toList ++ (e.chars ++ ')' :: u)) := by
  simp [chars]

theorem connect_append (con : Connective) (l r : Node) (u : List Char) :
    chars (.connect con l r) ++ u =
      '(' :: (l.chars ++ ' ' :: (con.spelling.toList ++ ' ' :: (r.chars ++ ')' :: u))) := by
  simp [chars]

theorem conditional_append (t a b : Node) (u : List Char) : chars (.conditional t a b) ++ u =
    '(' :: (t.chars ++ ' ' :: '?' :: ' ' ::
      (a.chars ++ ' ' :: ':' :: ' ' :: (b.chars ++ ')' :: u))) := by
  simp [chars]

theorem unary_append_inj (he : e.Legible) (he' : e'.Lowered)
    (heq : chars (.unary op e) ++ u = chars (.unary op' e') ++ v) :
    identified (.unary op e) = identified (.unary op' e') ∧ u = v := by
  rw [unary_append, unary_append] at heq
  obtain ⟨rfl, hrest⟩ := unaryText_append_inj (List.cons.inj heq).2
  obtain ⟨hoperand, huv⟩ := he.append_inj he' (by decide) hrest
  exact ⟨by rw [identified, identified, hoperand], huv⟩

theorem connect_append_inj (hl : l.Legible) (hr : r.Legible) (hl' : l'.Lowered) (hr' : r'.Lowered)
    (heq : chars (.connect con l r) ++ u = chars (.connect con' l' r') ++ v) :
    identified (.connect con l r) = identified (.connect con' l' r') ∧ u = v := by
  rw [connect_append, connect_append] at heq
  obtain ⟨hleft, hrest⟩ := hl.append_inj hl' (by decide) (List.cons.inj heq).2
  obtain ⟨hcon, hrest⟩ := append_inj_of_stops (spelling_no_blank con) (spelling_no_blank con')
    (stops_cons rfl _) (stops_cons rfl _) hrest
  obtain ⟨hright, huv⟩ := hr.append_inj hr' (by decide) (List.cons.inj hrest).2
  exact ⟨by rw [identified, identified, spelling_injective hcon, hleft, hright], huv⟩

theorem conditional_append_inj (ht : t.Legible) (ha : a.Legible) (hb : b.Legible)
    (ht' : t'.Lowered) (ha' : a'.Lowered) (hb' : b'.Lowered)
    (heq : chars (.conditional t a b) ++ u = chars (.conditional t' a' b') ++ v) :
    identified (.conditional t a b) = identified (.conditional t' a' b') ∧ u = v := by
  rw [conditional_append, conditional_append] at heq
  obtain ⟨htest, hrest⟩ := ht.append_inj ht' (by decide) (List.cons.inj heq).2
  obtain ⟨hthen, hrest⟩ := ha.append_inj ha' (by decide) (List.cons.inj (List.cons.inj hrest).2).2
  obtain ⟨helse, huv⟩ := hb.append_inj hb' (by decide) (List.cons.inj (List.cons.inj hrest).2).2
  exact ⟨by rw [identified, identified, htest, hthen, helse], huv⟩

/-- Between two operands stands no question mark. -/
theorem connect_ne_conditional (hl : l.Legible) (ht : t.Lowered) :
    chars (.connect con l r) ++ u ≠ chars (.conditional t a b) ++ v := by
  rw [connect_append, conditional_append]
  intro heq
  exact spelling_append_ne con _ _ (hl.append_inj ht (by decide) (List.cons.inj heq).2).2

theorem conditional_ne_connect (ht : t.Legible) (hl : l.Lowered) :
    chars (.conditional t a b) ++ u ≠ chars (.connect con l r) ++ v := by
  rw [connect_append, conditional_append]
  intro heq
  exact spelling_append_ne con _ _ (ht.append_inj hl (by decide) (List.cons.inj heq).2).2.symm

theorem unary_ne_connect (hl : l.Lowered) :
    chars (.unary op e) ++ u ≠ chars (.connect con l r) ++ v := by
  rw [unary_append, connect_append]
  exact fun heq => hl.not_unary op (List.cons.inj heq).2

theorem unary_ne_conditional (ht : t.Lowered) :
    chars (.unary op e) ++ u ≠ chars (.conditional t a b) ++ v := by
  rw [unary_append, conditional_append]
  exact fun heq => ht.not_unary op (List.cons.inj heq).2

end Brackets

section Items

variable {name name' : String} {ns ms : List Node}

theorem helper_append_inj (hname : isName name.toList = true) (hname' : isName name'.toList = true)
    (hns : ∀ n ∈ ns, n.Legible) (hms : ∀ m ∈ ms, m.Lowered)
    (heq : chars (.helper name ns) ++ u = chars (.helper name' ms) ++ v) :
    identified (.helper name ns) = identified (.helper name' ms) ∧ u = v := by
  have heq : Node.receiver ++ (name.toList ++ '(' :: '_' :: (Node.restChars ns ++ ')' :: u)) =
      Node.receiver ++ (name'.toList ++ '(' :: '_' :: (Node.restChars ms ++ ')' :: v)) := by
    simpa [chars] using heq
  obtain ⟨hnames, hrest⟩ := append_inj_of_stops (isNameRest_of_isName hname)
    (isNameRest_of_isName hname') (stops_cons rfl _) (stops_cons rfl _)
    (List.append_cancel_left heq)
  obtain ⟨hall, huv⟩ := Node.restChars_append_inj hns hms (.inl rfl)
    (List.cons.inj (List.cons.inj hrest).2).2
  exact ⟨by rw [identified, identified, String.toList_injective hnames, hall], huv⟩

theorem array_append_inj (hns : ∀ n ∈ ns, n.Legible) (hns' : ∀ n ∈ ns, n.Lowered)
    (hms : ∀ m ∈ ms, m.Lowered) (heq : chars (.array ns) ++ u = chars (.array ms) ++ v) :
    identified (.array ns) = identified (.array ms) ∧ u = v := by
  have heq : Node.listChars ns ++ ']' :: u = Node.listChars ms ++ ']' :: v := by
    simpa [chars] using heq
  obtain ⟨hall, huv⟩ := Node.listChars_append_inj hns hns' hms (.inr rfl) heq
  exact ⟨by rw [identified, identified, hall], huv⟩

end Items

/-- What stands first decides the form of a head; then its parts are read one after the other. -/
theorem chars_append_inj (hh : h.Sound) (hk : k.Sound) (hparts : ∀ p ∈ h.parts, p.Legible)
    (hu : Numeral.Ends u) (hv : Numeral.Ends v) (heq : h.chars ++ u = k.chars ++ v) :
    h.identified = k.identified ∧ u = v := by
  have hopening := opening_eq hh.plain hk.plain heq
  obtain ⟨hplain, hlowered⟩ := hh
  obtain ⟨hplain', hlowered'⟩ := hk
  cases h with
  | const a =>
    cases k with
    | const b =>
      obtain ⟨rfl, huv⟩ := Value.text_append_inj hplain hplain' hu hv heq
      exact ⟨rfl, huv⟩
    | _ => cases hopening
  | root =>
    cases k with
    | root => exact ⟨rfl, (List.cons.inj heq).2⟩
    | _ => cases hopening
  | helper name ns =>
    cases k with
    | helper name' ms => exact helper_append_inj hplain hplain' hparts hlowered' heq
    | _ => cases hopening
  | array ns =>
    cases k with
    | array ms => exact array_append_inj hparts hlowered hlowered' heq
    | _ => cases hopening
  -- the forms in parentheses begin alike: their first operands tell them apart
  | unary op e =>
    simp only [parts, List.forall_mem_singleton] at hparts
    cases k with
    | unary op' e' =>
      simp only [parts, List.forall_mem_singleton] at hlowered'
      exact unary_append_inj hparts hlowered' heq
    | connect con l r =>
      simp only [parts, List.forall_mem_cons] at hlowered'
      exact absurd heq (unary_ne_connect hlowered'.1)
    | conditional t a b =>
      simp only [parts, List.forall_mem_cons] at hlowered'
      exact absurd heq (unary_ne_conditional hlowered'.1)
    | _ => cases hopening
  | connect con l r =>
    simp only [parts, List.forall_mem_cons] at hparts hlowered
    cases k with
    | unary op' e' => exact absurd heq.symm (unary_ne_connect hlowered.1)
    | connect con' l' r' =>
      simp only [parts, List.forall_mem_cons] at hlowered'
      exact connect_append_inj hparts.1 hparts.2.1 hlowered'.1 hlowered'.2.1 heq
    | conditional t a b =>
      simp only [parts, List.forall_mem_cons] at hlowered'
      exact absurd heq (connect_ne_conditional hparts.1 hlowered'.1)
    | _ => cases hopening
  | conditional t a b =>
    simp only [parts, List.forall_mem_cons] at hparts hlowered
    cases k with
    | unary op' e' => exact absurd heq.symm (unary_ne_conditional hlowered.1)
    | connect con l r =>
      simp only [parts, List.forall_mem_cons] at hlowered'
      exact absurd heq (conditional_ne_connect hparts.1 hlowered'.1)
    | conditional t' a' b' =>
      simp only [parts, List.forall_mem_cons] at hlowered'
      exact conditional_append_inj hparts.1 hparts.2.1 hparts.2.2.1 hlowered'.1 hlowered'.2.1
        hlowered'.2.2.1 heq
    | _ => cases hopening

end Head

namespace Suffix

variable {s t : Suffix} {ss ts : List Suffix} {u v : List Char}

theorem chars_property {name : String} (h : isName name.toList = true) :
    chars (.property name) = '.' :: name.toList := by
  simp [chars, Node.propertyText, h]

/-- How a suffix begins, a property with its name behind the point. -/
theorem chars_cases (hs : s.Plain) :
    (∃ c cs, s.chars = '.' :: c :: cs ∧ c.isDigit = false) ∨
      ∃ c cs, s.chars = c :: cs ∧ (c = '[' ∨ c = '(') := by
  cases s with
  | property name =>
    obtain ⟨c, cs, hname⟩ : ∃ c cs, name.toList = c :: cs := by
      cases hname : name.toList with
      | nil =>
        have hs : isName name.toList = true := hs
        rw [hname] at hs
        cases hs
      | cons c cs => exact ⟨c, cs, rfl⟩
    have hs : isName name.toList = true := hs
    refine .inl ⟨c, cs, by rw [chars_property hs, hname], ?_⟩
    rw [hname] at hs
    exact isDigit_of_isNameStart (isName_cons_iff.1 hs).1
  | key k => exact .inr ⟨_, _, rfl, .inl rfl⟩
  | args ns => exact .inr ⟨_, _, rfl, .inr rfl⟩

theorem follows (hs : s.Plain) (u : List Char) : Follows (s.chars ++ u) := by
  rcases chars_cases hs with ⟨c, cs, hc, hdigit⟩ | ⟨c, cs, hc, rfl | rfl⟩
  · rw [hc]
    exact ⟨⟨hdigit, stops_cons rfl _⟩, stops_cons rfl _⟩
  · rw [hc]
    exact ⟨⟨rfl, stops_cons rfl _⟩, stops_cons rfl _⟩
  · rw [hc]
    exact ⟨⟨rfl, stops_cons rfl _⟩, stops_cons rfl _⟩

theorem not_closes (hs : s.Plain) (u : List Char) : ¬ Closes (s.chars ++ u) := by
  intro h
  rcases chars_cases hs with ⟨c, cs, hc, -⟩ | ⟨c, cs, hc, rfl | rfl⟩
  · rw [hc] at h
    simpa using h '.' rfl
  · rw [hc] at h
    simpa using h '[' rfl
  · rw [hc] at h
    simpa using h '(' rfl

theorem follows_flatMap (hss : ∀ s ∈ ss, s.Sound) (hu : Closes u) :
    Follows (ss.flatMap chars ++ u) := by
  cases ss with
  | nil => exact hu.follows
  | cons s ss =>
    rw [List.flatMap_cons, List.append_assoc]
    exact follows (hss s List.mem_cons_self).plain _

theorem chars_append_inj (hs : s.Sound) (ht : t.Sound) (hparts : ∀ p ∈ s.parts, p.Legible)
    (hu : Follows u) (hv : Follows v) (heq : s.chars ++ u = t.chars ++ v) :
    s.identified = t.identified ∧ u = v := by
  obtain ⟨hplain, hlowered⟩ := hs
  obtain ⟨hplain', hlowered'⟩ := ht
  cases s with
  | property name =>
    rw [chars_property hplain] at heq
    cases t with
    | property name' =>
      rw [chars_property hplain'] at heq
      obtain ⟨hname, huv⟩ := append_inj_of_stops (isNameRest_of_isName hplain)
        (isNameRest_of_isName hplain') hu.stops hv.stops (List.cons.inj heq).2
      exact ⟨by rw [String.toList_injective hname], huv⟩
    | _ => cases (List.cons.inj heq).1
  | key k =>
    cases t with
    | property name =>
      rw [chars_property hplain'] at heq
      cases (List.cons.inj heq).1
    | key k' =>
      simp only [parts, List.forall_mem_singleton] at hparts hlowered'
      have heq : k.chars ++ ']' :: u = k'.chars ++ ']' :: v := by simpa [chars] using heq
      obtain ⟨hkey, huv⟩ := hparts.append_inj hlowered' (by decide) heq
      exact ⟨by rw [identified, identified, hkey], huv⟩
    | args ns => cases (List.cons.inj heq).1
  | args ns =>
    cases t with
    | property name =>
      rw [chars_property hplain'] at heq
      cases (List.cons.inj heq).1
    | key k => cases (List.cons.inj heq).1
    | args ms =>
      have heq : Node.listChars ns ++ ')' :: u = Node.listChars ms ++ ')' :: v := by
        simpa [chars] using heq
      obtain ⟨hall, huv⟩ := Node.listChars_append_inj hparts hlowered hlowered' (.inl rfl) heq
      exact ⟨congrArg Suffix.args hall, huv⟩

theorem flatMap_append_inj (hss : ∀ s ∈ ss, s.Sound) (hts : ∀ t ∈ ts, t.Sound)
    (hparts : ∀ s ∈ ss, ∀ p ∈ s.parts, p.Legible) (hu : Closes u) (hv : Closes v)
    (heq : ss.flatMap chars ++ u = ts.flatMap chars ++ v) :
    ss.map identified = ts.map identified ∧ u = v := by
  induction ss generalizing ts with
  | nil =>
    cases ts with
    | nil => exact ⟨rfl, heq⟩
    | cons t ts =>
      rw [List.flatMap_nil, List.nil_append, List.flatMap_cons, List.append_assoc] at heq
      exact absurd (heq ▸ hu) (not_closes (hts t List.mem_cons_self).plain _)
  | cons s ss ih =>
    cases ts with
    | nil =>
      rw [List.flatMap_nil, List.nil_append, List.flatMap_cons, List.append_assoc] at heq
      exact absurd (heq ▸ hv) (not_closes (hss s List.mem_cons_self).plain _)
    | cons t ts =>
      rw [List.forall_mem_cons] at hss hts hparts
      rw [List.flatMap_cons, List.flatMap_cons, List.append_assoc, List.append_assoc] at heq
      obtain ⟨hst, hrest⟩ := chars_append_inj hss.1 hts.1 hparts.1 (follows_flatMap hss.2 hu)
        (follows_flatMap hts.2 hv) heq
      obtain ⟨hall, huv⟩ := ih hss.2 hts.2 hparts.2 hrest
      exact ⟨by rw [List.map_cons, List.map_cons, hst, hall], huv⟩

end Suffix

namespace Node

/-- A tree is read from its head through its suffixes, by induction on the trees inside them. -/
theorem Lowered.legible {n : Node} : n.Lowered → n.Legible := by
  induction n using parts_induction with
  | step n ih =>
    intro hn m u v hm hu hv heq
    have hparts : ∀ p ∈ n.parts, p.Legible := fun p hp => ih p hp (hn.part p hp)
    rw [chars_eq_append n, chars_eq_append m, List.append_assoc, List.append_assoc] at heq
    obtain ⟨hhead, hrest⟩ := Head.chars_append_inj hn.head_sound hm.head_sound
      (fun p hp => hparts p (List.mem_append_left _ hp))
      (Suffix.follows_flatMap hn.suffix_sound hu).ends
      (Suffix.follows_flatMap hm.suffix_sound hv).ends heq
    obtain ⟨hsuffixes, huv⟩ := Suffix.flatMap_append_inj hn.suffix_sound hm.suffix_sound
      (fun s hs p hp => hparts p (List.mem_append_right _ (List.mem_flatMap.2 ⟨s, hs, hp⟩)))
      hu hv hrest
    exact ⟨by rw [identified_eq_ofChain n hn, identified_eq_ofChain m hm, hhead, hsuffixes], huv⟩

mutual

/-- The calls that are identified have one text. -/
theorem text_identified : (n : Node) → n.identified.text = n.text
  | .const _ | .contextRoot | .contextRead _ => rfl
  | .helper _ args | .array args => by simp [identified, text, textAll_identifiedAll args]
  | .unary _ e | .member e _ => by simp [identified, text, text_identified e]
  | .binary _ l r | .logical _ l r | .index l r => by
    simp [identified, text, text_identified l, text_identified r]
  | .conditional t a b => by
    simp [identified, text, text_identified t, text_identified a, text_identified b]
  | .method o _ args => by simp [identified, text, text_identified o, textAll_identifiedAll args]
  | .methodAt o k args => by
    simp [identified, text, text_identified o, text_identified k, textAll_identifiedAll args]
  | .callValue f args => by
    by_cases hread : ∃ name, f = .contextRead name
    · obtain ⟨name, rfl⟩ := hread
      simp [identified, text, textAll_identifiedAll args]
    · rw [identified_callValue (not_exists.1 hread), text, text, text_identified f,
        textAll_identifiedAll args]

theorem textAll_identifiedAll : (ns : List Node) → textAll (identifiedAll ns) = textAll ns
  | [] => rfl
  | n :: ns => by rw [identifiedAll, textAll, textAll, text_identified n, textAll_identifiedAll ns]

end

theorem text_eq_iff {n m : Node} (hn : n.Lowered) (hm : m.Lowered) :
    n.text = m.text ↔ n.identified = m.identified := by
  constructor
  · intro htext
    have hchars : n.chars ++ [] = m.chars ++ [] := by rw [chars, chars, htext]
    have hclosed : Closes [] := fun _ h => by cases h
    exact (hn.legible hm hclosed hclosed hchars).1
  · intro hidentified
    rw [← text_identified n, hidentified, text_identified m]

end Node

/-- Two sources are compiled to trees with one text if and only if the trees are equal once each
call of a property of the context is identified with the call of a method of the whole context. -/
theorem texts_tell_trees_apart {limit limit' : Nat} {source source' : List Char}
    {e e' : SourceExpr} {n n' : Node} (he : SourceExpr.ofText limit source = .ok e)
    (he' : SourceExpr.ofText limit' source' = .ok e') (hn : e.toNode = .ok n)
    (hn' : e'.toNode = .ok n') : n.text = n'.text ↔ n.identified = n'.identified :=
  Node.text_eq_iff (SourceExpr.plain_of_toNode he hn) (SourceExpr.plain_of_toNode he' hn')

/-- A property that is called and a method of the whole context. -/
theorem texts_tell_trees_apart_sample :
    ∃ e e' : SourceExpr, ∃ n n' : Node, SourceExpr.ofText 4 "m(k)".toList = .ok e ∧
      SourceExpr.ofText 4 "$.m(k)".toList = .ok e' ∧ e.toNode = .ok n ∧ e'.toNode = .ok n' ∧
      n ≠ n' ∧ n.text = "$.m($.k)" ∧ n'.text = "$.m($.k)" ∧ n.identified = n'.identified := by
  let e : SourceExpr := .call ⟨⟨0, 4⟩, 2⟩ (.ident ⟨⟨0, 1⟩, 1⟩ "m") [.ident ⟨⟨2, 3⟩, 1⟩ "k"]
  let e' : SourceExpr := .call ⟨⟨0, 6⟩, 3⟩ (.member ⟨⟨0, 3⟩, 2⟩ (.ident ⟨⟨0, 1⟩, 1⟩ "$") "m")
    [.ident ⟨⟨4, 5⟩, 1⟩ "k"]
  let n : Node := .callValue (.contextRead "m") [.contextRead "k"]
  let n' : Node := .method .contextRoot "m" [.contextRead "k"]
  have he : SourceExpr.ofText 4 "m(k)".toList = .ok e := rfl
  have he' : SourceExpr.ofText 4 "$.m(k)".toList = .ok e' := rfl
  have hn : e.toNode = .ok n := rfl
  have hn' : e'.toNode = .ok n' := rfl
  have htext : n.text = "$.m($.k)" := rfl
  have htext' : n'.text = "$.m($.k)" := rfl
  have hidentified := (texts_tell_trees_apart he he' hn hn').1 (htext.trans htext'.symm)
  exact ⟨e, e', n, n', he, he', hn, hn', by simp [n, n'], htext, htext', hidentified⟩

end SigilExpr
