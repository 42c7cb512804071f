import SigilExpr.Binary64.Basic
import SigilExpr.Operator
import SigilExpr.Text.Location

/-!
# Expressions

An expression is a tree whose nodes carry notes of one type. What the parser builds carries marks,
the bytes and the height of each node; the bare tree, with nothing noted, is what two spellings of
one expression have in common.
-/

set_option autoImplicit false

namespace SigilExpr

/-- An expression with a note at every node. -/
inductive Expr (Note : Type) where
  | number (note : Note) (x : Binary64)
  | string (note : Note) (s : String)
  | bool (note : Note) (b : Bool)
  | null (note : Note)
  | ident (note : Note) (name : String)
  | unary (note : Note) (op : UnaryOp) (operand : Expr Note)
  | binary (note : Note) (op : BinaryOp) (left right : Expr Note)
  | logical (note : Note) (op : LogicalOp) (left right : Expr Note)
  | conditional (note : Note) (test consequent alternate : Expr Note)
  | call (note : Note) (callee : Expr Note) (args : List (Expr Note))
  | member (note : Note) (object : Expr Note) (name : String)
  | index (note : Note) (object key : Expr Note)
  | array (note : Note) (items : List (Expr Note))

/-- What the parser notes at a node: its bytes, and how many nodes the longest way down has. -/
structure Mark where
  span : Span
  height : Nat
deriving DecidableEq, Inhabited

abbrev SourceExpr := Expr Mark

namespace Expr

variable {Note : Type}

def note : Expr Note → Note
  | .number n _ | .string n _ | .bool n _ | .null n | .ident n _ | .unary n _ _ | .binary n _ _ _
  | .logical n _ _ _ | .conditional n _ _ _ | .call n _ _ | .member n _ _ | .index n _ _
  | .array n _ => n

def withNote (n : Note) : Expr Note → Expr Note
  | .number _ x => .number n x
  | .string _ s => .string n s
  | .bool _ b => .bool n b
  | .null _ => .null n
  | .ident _ name => .ident n name
  | .unary _ op e => .unary n op e
  | .binary _ op l r => .binary n op l r
  | .logical _ op l r => .logical n op l r
  | .conditional _ t a b => .conditional n t a b
  | .call _ f args => .call n f args
  | .member _ o name => .member n o name
  | .index _ o k => .index n o k
  | .array _ items => .array n items

/-- The nodes directly below the root, in the order in which they are evaluated. -/
def children : Expr Note → List (Expr Note)
  | .number _ _ | .string _ _ | .bool _ _ | .null _ | .ident _ _ => []
  | .unary _ _ e => [e]
  | .binary _ _ l r | .logical _ _ l r => [l, r]
  | .conditional _ t a b => [t, a, b]
  | .call _ f args => f :: args
  | .member _ o _ => [o]
  | .index _ o k => [o, k]
  | .array _ items => items

mutual

/-- All nodes, each before the nodes below it, otherwise in the order of evaluation. -/
def nodes : Expr Note → List (Expr Note)
  | .number n x => [.number n x]
  | .string n s => [.string n s]
  | .bool n b => [.bool n b]
  | .null n => [.null n]
  | .ident n name => [.ident n name]
  | .unary n op e => .unary n op e :: nodes e
  | .binary n op l r => .binary n op l r :: (nodes l ++ nodes r)
  | .logical n op l r => .logical n op l r :: (nodes l ++ nodes r)
  | .conditional n t a b => .conditional n t a b :: (nodes t ++ nodes a ++ nodes b)
  | .call n f args => .call n f args :: (nodes f ++ nodesAll args)
  | .member n o name => .member n o name :: nodes o
  | .index n o k => .index n o k :: (nodes o ++ nodes k)
  | .array n items => .array n items :: nodesAll items

def nodesAll : List (Expr Note) → List (Expr Note)
  | [] => []
  | e :: es => nodes e ++ nodesAll es

end

mutual

def map {Other : Type} (f : Note → Other) : Expr Note → Expr Other
  | .number n x => .number (f n) x
  | .string n s => .string (f n) s
  | .bool n b => .bool (f n) b
  | .null n => .null (f n)
  | .ident n name => .ident (f n) name
  | .unary n op e => .unary (f n) op (map f e)
  | .binary n op l r => .binary (f n) op (map f l) (map f r)
  | .logical n op l r => .logical (f n) op (map f l) (map f r)
  | .conditional n t a b => .conditional (f n) (map f t) (map f a) (map f b)
  | .call n g args => .call (f n) (map f g) (mapAll f args)
  | .member n o name => .member (f n) (map f o) name
  | .index n o k => .index (f n) (map f o) (map f k)
  | .array n items => .array (f n) (mapAll f items)

def mapAll {Other : Type} (f : Note → Other) : List (Expr Note) → List (Expr Other)
  | [] => []
  | e :: es => map f e :: mapAll f es

end

def bare (e : Expr Note) : Expr Unit := e.map fun _ => ()

end Expr

namespace SourceExpr

def span (e : SourceExpr) : Span := e.note.span

def height (e : SourceExpr) : Nat := e.note.height

end SourceExpr

end SigilExpr
