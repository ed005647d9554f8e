/-!
# Tokens of a line

Spaces and tabs part tokens, except between double quotes, where a backslash makes the next
character a plain one. A dash outside quotes is held back: it joins the token with the next
character, is dropped at a blank or at the end of the line, and a second dash drops the rest of the
line. Quote marks do not disturb a dash that is held back. A token is never empty.
-/

set_option autoImplicit false
set_option relaxedAutoImplicit false

namespace CommandScript

/-- What a line leaves open at its end. -/
inductive Unterminated
  | quote
  | escape
  deriving DecidableEq, Repr

namespace Unterminated

def message : Unterminated → String
  | quote => "Line terminates with incomplete quoted string"
  | escape => "Line terminates with incomplete escape character"

end Unterminated

namespace Tokens

/-- How the next character is to be read. -/
inductive Mode
  | plain
  | quoted
  | escaped
  deriving DecidableEq, Repr

/-- The tokens in the rest of a line: the rest of the token under way, and the tokens behind it. -/
structure Remaining where
  word : List Char := []
  later : List (List Char) := []
  deriving DecidableEq, Repr

namespace Remaining

/-- The tokens, once nothing can join the first any more. -/
def toList (remaining : Remaining) : List (List Char) :=
  if remaining.word.isEmpty then remaining.later else remaining.word :: remaining.later

/-- Puts a character in front, and the dash that was held back for it before that. -/
def push (remaining : Remaining) (held : Bool) (c : Char) : Remaining :=
  { remaining with word := if held then '-' :: c :: remaining.word else c :: remaining.word }

/-- Ends the token under way in front of all of these. -/
def close (remaining : Remaining) : Remaining := { word := [], later := remaining.toList }

end Remaining

/-- Reads the rest of a line; `held` says that a dash is held back. -/
def scan : Mode → (held : Bool) → List Char → Except Unterminated Remaining
  | .plain, _, [] => .ok {}
  | .quoted, _, [] => .error .quote
  | .escaped, _, [] => .error .escape
  | .escaped, held, c :: rest => (·.push held c) <$> scan .quoted false rest
  | .quoted, held, c :: rest =>
    if c = '\\' then scan .escaped held rest
    else if c = '"' then scan .plain held rest
    else (·.push held c) <$> scan .quoted false rest
  | .plain, held, c :: rest =>
    if c = '"' then scan .quoted held rest
    else if c = '-' then if held then .ok {} else scan .plain true rest
    else if c = ' ' ∨ c = '\t' then (·.close) <$> scan .plain false rest
    else (·.push held c) <$> scan .plain false rest

end Tokens

/-- The tokens of a line. -/
def tokenize (line : List Char) : Except Unterminated (List (List Char)) :=
  (·.toList) <$> Tokens.scan .plain false line

end CommandScript
