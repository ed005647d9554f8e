/-!
# JSON text

The values that the program writes, and their one text: no blanks, the members of an object in the
order given, and in a string only the quote, the backslash and the characters below U+0020 escaped.
-/

set_option autoImplicit false
set_option relaxedAutoImplicit false

namespace CommandScript

inductive Json
  | string (text : String)
  | number (value : Nat)
  | boolean (value : Bool)
  | array (items : List Json)
  | object (members : List (String × Json))

namespace Json

/-- A character of a string: escaped by a letter where one is set aside for it, by its code where
it lies below U+0020, and otherwise itself. -/
def escape (c : Char) : List Char :=
  if c = '"' then ['\\', '"']
  else if c = '\\' then ['\\', '\\']
  else if c = '\n' then ['\\', 'n']
  else if c = '\r' then ['\\', 'r']
  else if c = '\t' then ['\\', 't']
  else if c = '\x08' then ['\\', 'b']
  else if c = '\x0c' then ['\\', 'f']
  else if c.toNat < 0x20 then
    ['\\', 'u', '0', '0', Nat.digitChar (c.toNat / 16), Nat.digitChar (c.toNat % 16)]
  else [c]

/-- A string between its quotes. -/
def quote (text : String) : List Char := '"' :: (text.toList.flatMap escape ++ ['"'])

mutual

def renderChars : Json → List Char
  | string text => quote text
  | number value => Nat.toDigits 10 value
  | boolean true => ['t', 'r', 'u', 'e']
  | boolean false => ['f', 'a', 'l', 's', 'e']
  | array items => '[' :: (renderItems items ++ [']'])
  | object members => '{' :: (renderMembers members ++ ['}'])

def renderItems : List Json → List Char
  | [] => []
  | [item] => item.renderChars
  | item :: next :: items => item.renderChars ++ ',' :: renderItems (next :: items)

def renderMembers : List (String × Json) → List Char
  | [] => []
  | [(key, value)] => quote key ++ ':' :: value.renderChars
  | (key, value) :: next :: members =>
    quote key ++ ':' :: (value.renderChars ++ ',' :: renderMembers (next :: members))

end

/-- The text of a value. -/
def render (value : Json) : String := String.ofList value.renderChars

end Json

end CommandScript
