import SigilExpr.Text.Blank
import SigilExpr.Token.Quoted

/-!
# From text to tokens

The tokens of a source are its words in order, blanks left out, and an end token at its length. At
each place the longest possible word is taken.
-/

set_option autoImplicit false

namespace SigilExpr

def Lexeme.ofName : String → Lexeme
  | "true" => .bool true
  | "false" => .bool false
  | "null" => .null
  | name => .ident name

/-- The word at the beginning of `cs`, which stands at byte `offset`, and its length. -/
def Lexeme.scan (offset : Nat) (cs : List Char) : Except Fault (Lexeme × Nat) :=
  match cs with
  | [] => .ok (.eof, 0)
  | c :: rest =>
    if NumberLiteral.begins cs then
      match NumberLiteral.scan offset cs with
      | .ok (x, n) => .ok (.number x, n)
      | .error f => .error f
    else if c = '"' || c = '\'' then
      match Quoted.read c offset (offset + 1) rest with
      | .ok (s, n) => .ok (.string (String.ofList s), n + 1)
      | .error f => .error f
    else if isNameStart c then
      let name := c :: rest.takeWhile isNameRest
      .ok (.ofName (String.ofList name), name.length)
    else
      match Lexeme.punctuation? cs with
      | some found => .ok found
      | none => .error (.malformed (.unexpectedCharacter c) ⟨offset, offset + c.utf8Size⟩)

namespace Token

/--
The tokens of a text that stands at byte `offset`; its first `skip` characters belong to the word
before it.
-/
def ofText (skip offset : Nat) : List Char → Except Fault (List Token)
  | [] => .ok [⟨.eof, ⟨offset, offset⟩⟩]
  | c :: cs =>
    match skip with
    | n + 1 => ofText n (offset + c.utf8Size) cs
    | 0 =>
      if Text.isBlank c then ofText 0 (offset + c.utf8Size) cs
      else
        match Lexeme.scan offset (c :: cs) with
        | .error f => .error f
        | .ok (lexeme, n) =>
          match ofText (n - 1) (offset + c.utf8Size) cs with
          | .error f => .error f
          | .ok tokens =>
            let stop := offset + Text.byteLength ((c :: cs).take n)
            .ok (⟨lexeme, ⟨offset, stop⟩⟩ :: tokens)

def ofSource (source : List Char) : Except Fault (List Token) :=
  ofText 0 0 source

end Token

end SigilExpr
