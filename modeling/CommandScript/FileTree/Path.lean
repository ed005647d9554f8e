/-!
# Paths

A location is where something stands in a tree, as the names on the way to it. A path is a text that
leads from one location to another, piece by piece: to where it stands already, up, or down by a
name. An absolute path starts at the root.
-/

set_option autoImplicit false
set_option relaxedAutoImplicit false

namespace CommandScript

/-- The names on the way from a place to the root: its own first. -/
abbrev Location := List String

namespace Location

def root : Location := []

/-- The absolute path of a location. -/
def path : Location → String
  | [] => "/"
  | [name] => "/" ++ name
  | name :: parent => path parent ++ "/" ++ name

/-- The number of bytes in the path of a location other than the root. -/
def size : Location → Nat
  | [] => 0
  | name :: parent => size parent + 1 + name.utf8ByteSize

end Location

namespace Path

/-- A step on a path. -/
inductive Piece
  | here
  | up
  | name (text : String)
  deriving DecidableEq, Repr

namespace Piece

def ofString (text : String) : Piece :=
  if text = "" ∨ text = "." then here else if text = ".." then up else name text

end Piece

/-- The steps that a path is made of. -/
def pieces (path : String) : List Piece :=
  (path.toList.splitOn '/').map fun part ↦ Piece.ofString (String.ofList part)

def isAbsolute (path : String) : Bool := path.toList.head? == some '/'

/-- Where a path starts that is followed at `location`. -/
def start (path : String) (location : Location) : Location :=
  if isAbsolute path then Location.root else location

/-- The path of what a name or a relative path leads to from the end of another path. -/
def join (path relative : String) : String :=
  if path = "" ∨ path.toList.getLast? = some '/' then path ++ relative else path ++ "/" ++ relative

/-- The greatest number of bytes in a path under which something can be opened. -/
def maxSize : Nat := 4095

/-- The greatest number of bytes in a name. -/
def maxNameSize : Nat := 255

/-- Whether a path can be followed at all. -/
def isUsable (path : String) : Bool := path ≠ "" && !path.toList.contains '\x00'

/-- Whether a path is short enough to open what it leads to. -/
def isShort (path : String) : Bool := path.utf8ByteSize ≤ maxSize

end Path

end CommandScript
