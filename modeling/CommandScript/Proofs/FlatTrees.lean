import CommandScript.FileTree.Run
import CommandScript.Proofs.Utf8RoundTrip
/-!
# Trees of one directory

A tree with nothing but files in its root (`FileTree.ofFiles`). A path that leads from the root to
one of the names is followed to that file, whatever else there is (`FileTree.follow?_ofFiles`); what
reading the file as a script or as settings gives comes from there.
-/

set_option autoImplicit false
set_option relaxedAutoImplicit false

namespace CommandScript

namespace FileTree

/-- A tree with some files in its root, and nothing else. -/
def ofFiles (files : List (String × Bytes)) : FileTree where
  node?
    | [] => some .directory
    | [name] => (files.lookup name).map .file
    | _ => none

section Files

variable {files : List (String × Bytes)} {path name : String} {content : Bytes}

theorem follow?_ofFiles (husable : Path.isUsable path = true)
    (hpieces : Path.pieces path = [.here, .name name]) (hsize : name.utf8ByteSize ≤ 255)
    (hfile : files.lookup name = some content) {limit : Option Nat}
    (hlimit : isWithin limit (Location.size [name]) = true) :
    (ofFiles files).follow? limit [] path = some (.existing [name]) := by
  have hstart : Path.start path [] = [] := by
    rw [Path.start, Location.root, ite_self]
  have hname : ¬ Path.maxNameSize < name.utf8ByteSize := Nat.not_lt.mpr hsize
  rw [follow?, if_pos husable, hpieces, hstart]
  simp [walk, ofFiles, hname, hlimit, hfile]

theorem library_ofFiles (husable : Path.isUsable path = true)
    (hpieces : Path.pieces path = [.here, .name name]) (hsize : name.utf8ByteSize ≤ 255)
    (hfile : files.lookup name = some content) :
    (ofFiles files).library [] path = some { path := Location.path [name], content } := by
  have hlimit : isWithin (some Path.maxSize) (Location.size [name]) = true := by
    simp only [isWithin, Path.maxSize, Location.size, Option.all_some]
    exact decide_eq_true (by omega)
  rw [library, resolve?, follow?_ofFiles husable hpieces hsize hfile hlimit]
  simp [contentAt?, ofFiles, hfile]

theorem reach?_ofFiles (husable : Path.isUsable path = true)
    (hpieces : Path.pieces path = [.here, .name name]) (hsize : name.utf8ByteSize ≤ 255)
    (hshort : Path.isShort path = true) (hfile : files.lookup name = some content) :
    (ofFiles files).reach? [] path = some (.existing [name]) := by
  rw [reach?, if_pos hshort, follow?_ofFiles husable hpieces hsize hfile rfl]

end Files

end FileTree

end CommandScript
