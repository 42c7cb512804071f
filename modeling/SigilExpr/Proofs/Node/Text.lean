import SigilExpr.Proofs.Node.Chain

/-!
# The text of a chain

The text of a compiled tree, as characters, is the text of its head and then of its suffixes. Items
are separated by a comma and a blank; a helper has the registry as its first item.
-/

set_option autoImplicit false

namespace SigilExpr

namespace Node

def chars (n : Node) : List Char := n.text.toList

/-- The trees of a list, each behind a comma. -/
def restChars (ns : List Node) : List Char := ns.flatMap fun n => ',' :: ' ' :: n.chars

def listChars : List Node → List Char
  | [] => []
  | n :: ns => n.chars ++ restChars ns

theorem intercalate_cons (s : List Char) (ns : List Node) :
    [',', ' '].intercalate (s :: (textAll ns).map String.toList) = s ++ restChars ns := by
  induction ns generalizing s with
  | nil => simp [textAll, restChars]
  | cons n ns ih =>
    rw [textAll, List.map_cons, List.intercalate_cons_cons, ih]
    simp [restChars, chars]

theorem intercalate_textAll (ns : List Node) :
    [',', ' '].intercalate ((textAll ns).map String.toList) = listChars ns := by
  cases ns with
  | nil => rfl
  | cons n ns => exact intercalate_cons n.chars ns

/-- What stands before the name of a helper. -/
def receiver : List Char := "await _.".toList

end Node

namespace Head

def chars : Head → List Char
  | .const v => v.text.toList
  | .root => ['$']
  | .helper name args =>
    Node.receiver ++ (name.toList ++ '(' :: '_' :: (Node.restChars args ++ [')']))
  | .unary op e => '(' :: ((Node.unaryText op).toList ++ (e.chars ++ [')']))
  | .connect op l r =>
    '(' :: (l.chars ++ ' ' :: (op.spelling.toList ++ ' ' :: (r.chars ++ [')'])))
  | .conditional t a b =>
    '(' :: (t.chars ++ ' ' :: '?' :: ' ' :: (a.chars ++ ' ' :: ':' :: ' ' :: (b.chars ++ [')'])))
  | .array items => '[' :: (Node.listChars items ++ [']'])

end Head

namespace Suffix

def chars : Suffix → List Char
  | .property name => (Node.propertyText name).toList
  | .key k => '[' :: (k.chars ++ [']'])
  | .args ns => '(' :: (Node.listChars ns ++ [')'])

end Suffix

namespace Node

section Forms

variable (o k : Node) (name : String) (args : List Node)

theorem chars_helper : (helper name args).chars = Head.chars (.helper name args) := by
  have hargs : (argsText ("_" :: textAll args)).toList =
      '(' :: '_' :: (restChars args ++ [')']) := by
    simp [argsText, intercalate_cons]
  change ("await _." ++ name ++ argsText ("_" :: textAll args)).toList = _
  rw [String.toList_append, String.toList_append, hargs, List.append_assoc]
  rfl

theorem chars_array : (array args).chars = Head.chars (.array args) := by
  change ("[" ++ ", ".intercalate (textAll args) ++ "]").toList = _
  simp [Head.chars, intercalate_textAll]

theorem toList_argsText : (argsText (textAll args)).toList = Suffix.chars (.args args) := by
  simp [argsText, Suffix.chars, intercalate_textAll]

theorem chars_member : (member o name).chars = o.chars ++ Suffix.chars (.property name) :=
  String.toList_append

theorem chars_index : (index o k).chars = o.chars ++ Suffix.chars (.key k) := by
  change (o.text ++ "[" ++ k.text ++ "]").toList = _
  simp [chars, Suffix.chars]

theorem chars_method : (method o name args).chars =
    o.chars ++ (Suffix.chars (.property name) ++ Suffix.chars (.args args)) := by
  change (o.text ++ propertyText name ++ argsText (textAll args)).toList = _
  simp [chars, Suffix.chars, toList_argsText]

theorem chars_methodAt : (methodAt o k args).chars =
    o.chars ++ (Suffix.chars (.key k) ++ Suffix.chars (.args args)) := by
  change (o.text ++ "[" ++ k.text ++ "]" ++ argsText (textAll args)).toList = _
  simp [chars, Suffix.chars, toList_argsText]

theorem chars_callValue : (callValue o args).chars = o.chars ++ Suffix.chars (.args args) := by
  change (o.text ++ argsText (textAll args)).toList = _
  rw [String.toList_append, toList_argsText]
  rfl

end Forms

/-- The text of a tree is that of its chain. -/
theorem chars_eq_append : (n : Node) → n.chars = n.head.chars ++ n.suffixes.flatMap Suffix.chars
  | .const v => (List.append_nil _).symm
  | .contextRoot => by simp [chars, text, head, suffixes, Head.chars]
  | .contextRead name => by simp [chars, text, head, suffixes, Head.chars, Suffix.chars]
  | .helper name args => (chars_helper name args).trans (List.append_nil _).symm
  | .unary op e => by simp [chars, text, head, suffixes, Head.chars]
  | .binary op l r => by
    simp [chars, text, infixText, head, suffixes, Head.chars, Connective.spelling]
  | .logical op l r => by
    simp [chars, text, infixText, head, suffixes, Head.chars, Connective.spelling]
  | .conditional t a b => by simp [chars, text, head, suffixes, Head.chars]
  | .array items => (chars_array items).trans (List.append_nil _).symm
  | .member o name => by
    rw [chars_member, chars_eq_append o]
    simp [head, suffixes]
  | .index o k => by
    rw [chars_index, chars_eq_append o]
    simp [head, suffixes]
  | .method o name args => by
    rw [chars_method, chars_eq_append o]
    simp [head, suffixes]
  | .methodAt o k args => by
    rw [chars_methodAt, chars_eq_append o]
    simp [head, suffixes]
  | .callValue f args => by
    rw [chars_callValue, chars_eq_append f]
    simp [head, suffixes]

end Node

end SigilExpr
