/-!
# Command names

A command name is an ASCII letter or an underscore followed by letters, digits and underscores, at
least one of them. A policy may let a lone letter or underscore through as well. Letters count in
either case; a command keeps its name in lower case (`canonicalName`), and only ASCII letters have
one, so folding neither makes nor breaks a name.
-/

set_option autoImplicit false
set_option relaxedAutoImplicit false

namespace CommandScript

def isNameStart (c : Char) : Bool := c.isAlpha || c == '_'

def isNameChar (c : Char) : Bool := c.isAlphanum || c == '_'

/-- The number of characters, all of which a name may hold, added to `count` in a signed word of 32
bits, or nothing when one of them is foreign to names. -/
def countNameChars (count : Int32) : List Char → Option Int32
  | [] => some count
  | c :: cs => if isNameChar c then countNameChars (count + 1) cs else none

/-- Whether a text is a name of two or more characters: what follows the first has a positive
count. -/
def isIdentifier (text : String) : Bool :=
  match text.toList with
  | [] => false
  | c :: cs => isNameStart c && (countNameChars 0 cs).any fun count ↦ 0 < count

/-- The form in which a command keeps its name. -/
def canonicalName (text : String) : String := String.ofList (text.toList.map Char.toLower)

/-- Which names may begin a command. -/
structure NamePolicy where
  allowSingleChar : Bool := false
  deriving DecidableEq, Repr

namespace NamePolicy

def strict : NamePolicy := { allowSingleChar := false }

def relaxed : NamePolicy := { allowSingleChar := true }

def accepts (policy : NamePolicy) (text : String) : Bool :=
  isIdentifier text || policy.allowSingleChar &&
    match text.toList with
    | [c] => isNameStart c
    | _ => false

end NamePolicy

end CommandScript
