/-!
# Rows of digits

A row of decimal digits spells a natural. Neighbours are joined into digits of the squared base
until one digit is left, so that a long row costs little more than one product of its size. The main
statement is that joining changes no value, so that a digit at the end of a row adds itself to ten
times what stands before it.
-/

set_option autoImplicit false

namespace SigilExpr.Decimal

def digitValue (c : Char) : Nat := c.toNat - '0'.toNat

def ofPlaces (base : Nat) (digits : List Nat) : Nat :=
  digits.foldr (fun digit rest => digit + base * rest) 0

/-- The digits in the squared base that pairs of digits make, the last digit first. -/
def joinPairs (base : Nat) : List Nat → List Nat
  | low :: high :: rest => (low + base * high) :: joinPairs base rest
  | digits => digits

/-- The natural with the given digits, joined in pairs for a number of rounds. -/
def ofJoined : Nat → Nat → List Nat → Nat
  | rounds + 1, base, low :: high :: rest =>
    ofJoined rounds (base * base) (joinPairs base (low :: high :: rest))
  | _, base, digits => ofPlaces base digits

def ofDigits (cs : List Char) : Nat :=
  let digits := cs.foldl (fun done c => digitValue c :: done) []
  ofJoined digits.length 10 digits

theorem ofPlaces_cons (base digit : Nat) (digits : List Nat) :
    ofPlaces base (digit :: digits) = digit + base * ofPlaces base digits := rfl

theorem ofPlaces_joinPairs (base : Nat) (digits : List Nat) :
    ofPlaces (base * base) (joinPairs base digits) = ofPlaces base digits := by
  fun_induction joinPairs base digits with
  | case1 low high rest ih =>
    rw [ofPlaces_cons, ih, ofPlaces_cons, ofPlaces_cons, Nat.mul_add, Nat.mul_assoc, Nat.add_assoc]
  | case2 digits h =>
    match digits, h with
    | [], _ => rfl
    | [_], _ => rfl
    | low :: high :: rest, h => exact (h low high rest rfl).elim

theorem ofJoined_eq (rounds base : Nat) (digits : List Nat) :
    ofJoined rounds base digits = ofPlaces base digits := by
  fun_induction ofJoined rounds base digits with
  | case1 rounds base low high rest ih => rw [ih, ofPlaces_joinPairs]
  | case2 => rfl

theorem ofDigits_eq_ofPlaces (cs : List Char) :
    ofDigits cs = ofPlaces 10 (cs.reverse.map digitValue) := by
  have h (done : List Nat) : cs.foldl (fun done c => digitValue c :: done) done =
      cs.reverse.map digitValue ++ done := by
    induction cs generalizing done with
    | nil => rfl
    | cons c cs ih => simp [ih]
  rw [ofDigits, ofJoined_eq, h, List.append_nil]

@[simp] theorem ofDigits_nil : ofDigits [] = 0 := rfl

theorem ofDigits_concat (cs : List Char) (c : Char) :
    ofDigits (cs ++ [c]) = 10 * ofDigits cs + digitValue c := by
  simp [ofDigits_eq_ofPlaces, ofPlaces_cons, Nat.add_comm]

end SigilExpr.Decimal
