/-!
# User accounts

The home directory of a user's account, as the system's list of accounts has it: an account a line,
with its number third and its home directory sixth among fields that colons part.
-/

set_option autoImplicit false
set_option relaxedAutoImplicit false

namespace CommandScript

namespace Account

def fieldsOf (separator : Char) (line : List Char) : List String :=
  (line.splitOn separator).map String.ofList

/-- The home directory on a line of the list, if the line is the user's. -/
def homeOn? (user : String) (line : List Char) : Option String :=
  match fieldsOf ':' line with
  | [_, _, number, _, _, home, _] => if number = user then some home else none
  | _ => none

/-- The home directory of the user with a given number. -/
def home? (accounts user : String) : Option String :=
  (accounts.toList.splitOn '\n').findSome? (homeOn? user)

/-- The number of the user that a process runs for, from the report on its status. -/
def userOf? (status : String) : Option String :=
  (status.toList.splitOn '\n').findSome? fun line ↦
    match fieldsOf '\t' line with
    | "Uid:" :: user :: _ => some user
    | _ => none

end Account

end CommandScript
