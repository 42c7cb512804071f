/-!
# Finding a text in another

Places in a text are counted in characters here. `find?` says what is looked for: the first place at
which a text stands. `search?` finds it by comparing fingerprints, which take one step a place; only
where they agree are the texts themselves compared. The main statement is that the two are equal.
-/

set_option autoImplicit false

namespace SigilExpr.Text

/-- The first place of `cs` at which `needle` stands. -/
def find? (needle : List Char) : List Char → Option Nat
  | [] => if needle.isEmpty then some 0 else none
  | c :: cs =>
    if needle.isPrefixOf (c :: cs) then some 0 else (find? needle cs).map (· + 1)

def fingerprintBase : UInt64 := 0x9E3779B97F4A7C15

def extendFingerprint (h : UInt64) (c : Char) : UInt64 :=
  h * fingerprintBase + c.val.toUInt64

/-- A word that equal texts share and that others rarely do. -/
def fingerprint (cs : List Char) : UInt64 :=
  cs.foldl extendFingerprint 0

/-- What a character that stands `n` characters before the end is multiplied by. -/
def fingerprintWeight : Nat → UInt64
  | 0 => 1
  | n + 1 => fingerprintWeight n * fingerprintBase

/-- The fingerprint once `c` leaves a window at its front and `d` enters at its end. -/
def slideFingerprint (weight h : UInt64) (c d : Char) : UInt64 :=
  extendFingerprint h d - c.val.toUInt64 * weight

/-- Whether `needle` stands at the front of a text whose first window has the fingerprint `h`. -/
def standsAtFront (needle : List Char) (target h : UInt64) (front : List Char) : Bool :=
  h == target && needle.isPrefixOf front

/--
The first place of a text at which `needle` stands, where `h` is the fingerprint of the window of
the needle's length at its front, and the second text is what follows that window.
-/
def searchFrom (needle : List Char) (target weight : UInt64) :
    UInt64 → List Char → List Char → Option Nat
  | h, c :: cs, d :: ahead =>
    if standsAtFront needle target h (c :: cs) then some 0
    else (searchFrom needle target weight (slideFingerprint weight h c d) cs ahead).map (· + 1)
  | h, front, _ => if standsAtFront needle target h front then some 0 else none

def search? (needle cs : List Char) : Option Nat :=
  let n := needle.length
  if cs.length < n then none
  else searchFrom needle (fingerprint needle) (fingerprintWeight n) (fingerprint (cs.take n)) cs
    (cs.drop n)

theorem foldl_extendFingerprint (h : UInt64) (cs : List Char) :
    cs.foldl extendFingerprint h = h * fingerprintWeight cs.length + fingerprint cs := by
  induction cs generalizing h with
  | nil => simp [fingerprint, fingerprintWeight]
  | cons c cs ih =>
    rw [fingerprint, List.foldl_cons, List.foldl_cons, ih, ih (extendFingerprint 0 c)]
    simp only [extendFingerprint, List.length_cons, fingerprintWeight]
    grind

theorem slideFingerprint_eq (c d : Char) (cs : List Char) :
    slideFingerprint (fingerprintWeight (cs.length + 1)) (fingerprint (c :: cs)) c d =
      fingerprint (cs ++ [d]) := by
  have h : fingerprint (c :: cs) =
      extendFingerprint 0 c * fingerprintWeight cs.length + fingerprint cs := by
    rw [fingerprint, List.foldl_cons, foldl_extendFingerprint]
  have h' : fingerprint (cs ++ [d]) = extendFingerprint (fingerprint cs) d := by
    simp [fingerprint]
  rw [h, h']
  simp only [slideFingerprint, extendFingerprint, fingerprintWeight]
  grind

theorem find?_eq_none_of_length_lt {needle cs : List Char} (h : cs.length < needle.length) :
    find? needle cs = none := by
  induction cs with
  | nil =>
    cases needle with
    | nil => simp at h
    | cons => rfl
  | cons c cs ih =>
    have hp : needle.isPrefixOf (c :: cs) = false := by
      rw [Bool.eq_false_iff]
      intro hp
      have := (List.isPrefixOf_iff_prefix.1 hp).length_le
      omega
    simp only [List.length_cons] at h
    simp [find?, hp, ih (by omega)]

theorem standsAtFront_eq (needle front : List Char) :
    standsAtFront needle (fingerprint needle) (fingerprint (front.take needle.length)) front =
      needle.isPrefixOf front := by
  by_cases hp : needle.isPrefixOf front
  · have := List.prefix_iff_eq_take.1 (List.isPrefixOf_iff_prefix.1 hp)
    rw [standsAtFront, ← this]
    simp [hp]
  · simp [standsAtFront, hp]

theorem searchFrom_eq {needle ahead front : List Char} (h : front.drop needle.length = ahead)
    (hl : needle.length ≤ front.length) :
    searchFrom needle (fingerprint needle) (fingerprintWeight needle.length)
      (fingerprint (front.take needle.length)) front ahead = find? needle front := by
  induction front generalizing ahead with
  | nil =>
    rw [searchFrom, standsAtFront_eq]
    · cases needle with
      | nil => rfl
      | cons => simp at hl
    · simp
  | cons c cs ih =>
    cases ahead with
    | nil =>
      have hlen := congrArg List.length h
      simp only [List.length_drop, List.length_nil, List.length_cons] at hlen
      rw [searchFrom, standsAtFront_eq, find?,
        find?_eq_none_of_length_lt (by simp only [List.length_cons] at hl; omega)]
      · rfl
      · simp
    | cons d ahead =>
      rw [searchFrom, standsAtFront_eq, find?]
      cases needle with
      | nil => rfl
      | cons a needle =>
        simp only [List.length_cons, List.drop_succ_cons, List.take_succ_cons] at h hl ⊢
        have hn : (cs.take needle.length).length = needle.length := by
          simp only [List.length_take]
          omega
        have hcs : cs = cs.take needle.length ++ d :: ahead := by
          rw [← h, List.take_append_drop]
        have hwindow : cs.take (needle.length + 1) = cs.take needle.length ++ [d] := by
          conv => lhs; rw [hcs]
          rw [List.take_append, hn, List.take_of_length_le (by omega)]
          simp
        have hahead : cs.drop (needle.length + 1) = ahead := by
          rw [← List.drop_drop, h]
          rfl
        have hslide := slideFingerprint_eq c d (cs.take needle.length)
        rw [hn, ← hwindow] at hslide
        have hlen := congrArg List.length h
        simp only [List.length_drop, List.length_cons] at hlen
        rw [hslide, ← ih hahead (by simp only [List.length_cons]; omega)]
        rfl

/-- Comparing fingerprints finds the first place at which a text stands. -/
theorem search?_eq_find? (needle cs : List Char) : search? needle cs = find? needle cs := by
  rw [search?]
  split
  · rename_i h
    rw [find?_eq_none_of_length_lt h]
  · rename_i h
    exact searchFrom_eq rfl (by omega)

example : search? ['b', 'c'] ['a', 'b', 'b', 'c', 'b', 'c'] = some 2 := by decide +kernel

example : search? ['c', 'b', 'a'] ['a', 'b', 'c'] = none := by decide +kernel

end SigilExpr.Text
