import CommandScript.FileTree.Path
import CommandScript.Text.Utf8
/-!
# File trees

A tree says what stands at each location. Following a path needs a directory for every piece of it,
the last one included, and takes symbolic links as they come, so that a step up leads out of the
directory behind a link. Only so many links are followed. A path is resolved to a location one place
after the other, so that every place on the way needs a short path of its own; a path that is opened
has to be short itself, wherever it leads. Reading and appending go through paths; appending makes a
file that is missing in a directory that is not. A program finds its own standard streams in the
tree as well: what is appended there is shown and not kept.
-/

set_option autoImplicit false
set_option relaxedAutoImplicit false

namespace CommandScript

/-- The streams that the program at work prints to. -/
inductive StandardStream
  | output
  | error
  deriving DecidableEq, Repr

/-- What stands at a location. The null device reads as empty and keeps nothing, and a standard
stream of the program at work gives nothing to read. -/
inductive Node
  | directory
  | file (content : Bytes)
  | link (target : String)
  | nullDevice
  | stream (stream : StandardStream)
  deriving DecidableEq, Repr

structure FileTree where
  node? : Location → Option Node

namespace FileTree

/-- Where a path leads: to what is there, or to where a file can be made. -/
inductive Destination
  | existing (location : Location)
  | vacant (location : Location)
  deriving DecidableEq, Repr

/-- How many links a path may lead through. -/
def maxLinks : Nat := 40

/-- Whether a size is within a limit, if there is one. -/
def isWithin (limit : Option Nat) (size : Nat) : Bool := limit.all (size ≤ ·)

/-- Follows pieces from a location, through so many links. The paths of the places on the way are
within a limit, if there is one, with a slash behind those that are gone through. -/
def walk (tree : FileTree) (limit : Option Nat) (links : Nat) (location : Location)
    (pieces : List Path.Piece) : Option Destination :=
  match pieces with
  | [] => some (.existing location)
  | piece :: rest =>
    if tree.node? location = some .directory then
      match piece with
      | .here => tree.walk limit links location rest
      | .up => tree.walk limit links location.tail rest
      | .name name =>
        let place : Location := name :: location
        if Path.maxNameSize < name.utf8ByteSize || !isWithin limit (Location.size place) then none
        else
          match tree.node? place with
          | none => if rest.isEmpty then some (.vacant place) else none
          | some (.link target) =>
            match links with
            | 0 => none
            | links + 1 =>
              if Path.isUsable target then
                tree.walk limit links (Path.start target location) (Path.pieces target ++ rest)
              else none
          | some _ =>
            if rest.isEmpty || isWithin limit (Location.size place + 1) then
              tree.walk limit links place rest
            else none
    else none
termination_by (links, pieces.length)

/-- Where a path leads that is followed at `cwd`, past places whose paths are within a limit. -/
def follow? (tree : FileTree) (limit : Option Nat) (cwd : Location) (path : String) :
    Option Destination :=
  if Path.isUsable path then
    tree.walk limit maxLinks (Path.start path cwd) (Path.pieces path)
  else none

/-- The location that a path leads to, with no links on the way there. -/
def resolve? (tree : FileTree) (cwd : Location) (path : String) : Option Location :=
  match tree.follow? (some Path.maxSize) cwd path with
  | some (.existing location) => some location
  | _ => none

/-- Where a path leads under which something is to be opened. -/
def reach? (tree : FileTree) (cwd : Location) (path : String) : Option Destination :=
  if Path.isShort path then tree.follow? none cwd path else none

/-- The content of what stands at a location. -/
def contentAt? (tree : FileTree) (location : Location) : Option Bytes :=
  match tree.node? location with
  | some (.file content) => some content
  | some .nullDevice => some []
  | _ => none

/-- What a path leads to, if it leads to anything. -/
def nodeBehind? (tree : FileTree) (cwd : Location) (path : String) : Option Node :=
  match tree.reach? cwd path with
  | some (.existing location) => tree.node? location
  | _ => none

/-- The content of the file that a path leads to. -/
def read? (tree : FileTree) (cwd : Location) (path : String) : Option Bytes :=
  match tree.reach? cwd path with
  | some (.existing location) => tree.contentAt? location
  | _ => none

/-- The standard stream that a path leads to. -/
def stream? (tree : FileTree) (cwd : Location) (path : String) : Option StandardStream :=
  match tree.nodeBehind? cwd path with
  | some (.stream stream) => some stream
  | _ => none

/-- Puts something at a location. -/
def put (tree : FileTree) (location : Location) (node : Node) : FileTree where
  node? place := if place = location then some node else tree.node? place

@[simp]
theorem node?_put_self (tree : FileTree) (location : Location) (node : Node) :
    (tree.put location node).node? location = some node := by
  simp [put]

theorem node?_put_of_ne (tree : FileTree) {location place : Location} (node : Node)
    (hplace : place ≠ location) : (tree.put location node).node? place = tree.node? place := by
  simp [put, hplace]

/-- Makes a directory and those above it, as far as they are missing. -/
def makeDirectories (tree : FileTree) : Location → FileTree
  | [] => if (tree.node? []).isSome then tree else tree.put [] .directory
  | name :: parent =>
    let tree := tree.makeDirectories parent
    if (tree.node? (name :: parent)).isSome then tree else tree.put (name :: parent) .directory

/-- Adds to the end of the file that a path leads to, or makes it, if that can be done. -/
def append (tree : FileTree) (cwd : Location) (path : String) (bytes : Bytes) : FileTree :=
  match tree.reach? cwd path with
  | some (.vacant location) => tree.put location (.file bytes)
  | some (.existing location) =>
    match tree.node? location with
    | some (.file content) => tree.put location (.file (content ++ bytes))
    | _ => tree
  | none => tree

end FileTree

end CommandScript
