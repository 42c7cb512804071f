import SigilExpr.Helper.Registry

/-!
# Ready-made helpers

Simple helpers to build others from. All of them take note of their calls under a label, but for the
one that does nothing.
-/

set_option autoImplicit false

namespace SigilExpr.Helper

def noted (declared : Option String) (label : String) (body : List Value → Action) : Helper :=
  .mk declared fun args => .note (.call label args) (body args)

def idle : Helper := .mk none fun _ => .finish (.ok .null)

def constant (v : Value) (_ : List Value) : Action := .finish (.ok v)

def failing (message : String) (_ : List Value) : Action := .finish (.error (.failed message))

def first (args : List Value) : Action := .finish (.ok (args.headD .null))

def collect (args : List Value) : Action := .finish (.ok (.array args))

def count (args : List Value) : Action := .finish (.ok (.int args.length))

def has (args : List Value) : Action :=
  let name := match args with
    | .string s :: _ => s
    | _ => ""
  .names fun names => .finish (.ok (.bool (names.contains name)))

def listNames (_ : List Value) : Action :=
  .names fun names => .finish (.ok (.array (names.map .string)))

/-- Registers a helper and gives the number of helpers registered then. -/
def define (name : String) (h : Helper) (_ : List Value) : Action :=
  .register name h fun
    | .ok () => .names fun names => .finish (.ok (.int names.length))
    | .error e => .finish (.error (.registration e))

/-- Calls one helper after another, each with the result of the one before as its argument. -/
def chain : List String → List Value → Action
  | [], args => first args
  | [name], args => .invoke name args .finish
  | name :: names, args => .invoke name args fun
    | .ok v => chain names [v]
    | .error e => .finish (.error e)

end SigilExpr.Helper
