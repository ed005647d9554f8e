import CommandScript.FileTree
import Mathlib.Logic.Basic
/-!
# Adding to a file

Where a path leads depends on which places are directories and where the links point to, not on what
the files hold. So a file that is written, or made where there was nothing, stays where every path
to it leads (`walk_put_file`), and what is added later goes behind what was added before
(`openLog?_append`).
-/

set_option autoImplicit false
set_option relaxedAutoImplicit false

namespace CommandScript

namespace FileTree

variable {tree : FileTree} {limit : Option Nat} {links : Nat} {start location : Location}
  {pieces rest : List Path.Piece} {name : String} {content : Bytes}

/-! ### Steps of a walk -/

/-- Whether a walk may not go on to a name, because the name or the path to it is too long. -/
def isBarred (limit : Option Nat) (start : Location) (name : String) : Bool :=
  Path.maxNameSize < name.utf8ByteSize || !isWithin limit (Location.size (name :: start))

theorem walk_of_ne_directory (hstart : tree.node? start ≠ some .directory) (piece : Path.Piece) :
    tree.walk limit links start (piece :: rest) = none := by
  cases piece <;> simp [walk, hstart]

section Directory

variable (hstart : tree.node? start = some .directory)

include hstart

theorem walk_here : tree.walk limit links start (.here :: rest) =
    tree.walk limit links start rest := by
  rw [walk, if_pos hstart]

theorem walk_up : tree.walk limit links start (.up :: rest) =
    tree.walk limit links start.tail rest := by
  rw [walk, if_pos hstart]

theorem walk_name_of_barred (hbarred : isBarred limit start name = true) :
    tree.walk limit links start (.name name :: rest) = none := by
  rw [isBarred] at hbarred
  rw [walk, if_pos hstart]
  exact if_pos hbarred

section Name

variable (hopen : ¬ isBarred limit start name = true)

include hopen

theorem walk_name_of_none (hnone : tree.node? (name :: start) = none) :
    tree.walk limit links start (.name name :: rest) =
      if rest.isEmpty then some (.vacant (name :: start)) else none := by
  rw [isBarred] at hopen
  rw [walk, if_pos hstart]
  simp only [if_neg hopen, hnone]

theorem walk_name_of_link_zero {target : String}
    (hlink : tree.node? (name :: start) = some (.link target)) :
    tree.walk limit 0 start (.name name :: rest) = none := by
  rw [isBarred] at hopen
  rw [walk, if_pos hstart]
  simp only [if_neg hopen, hlink]

theorem walk_name_of_link_succ {target : String}
    (hlink : tree.node? (name :: start) = some (.link target)) :
    tree.walk limit (links + 1) start (.name name :: rest) =
      if Path.isUsable target then
        tree.walk limit links (Path.start target start) (Path.pieces target ++ rest)
      else none := by
  rw [isBarred] at hopen
  rw [walk, if_pos hstart]
  simp only [if_neg hopen, hlink]

theorem walk_name_of_some {node : Node} (hnode : ∀ target, node ≠ .link target)
    (hsome : tree.node? (name :: start) = some node) :
    tree.walk limit links start (.name name :: rest) =
      if rest.isEmpty || isWithin limit (Location.size (name :: start) + 1) then
        tree.walk limit links (name :: start) rest
      else none := by
  rw [isBarred] at hopen
  rw [walk, if_pos hstart]
  cases node with
  | link target => exact absurd rfl (hnode target)
  | directory => simp only [if_neg hopen, hsome]
  | file => simp only [if_neg hopen, hsome]
  | nullDevice => simp only [if_neg hopen, hsome]
  | stream => simp only [if_neg hopen, hsome]

end Name

end Directory

/-! ### Where paths lead once a file was made -/

/-- Where a path leads once a file was made at a location. -/
def Destination.made (location : Location) : Destination → Destination
  | existing place => existing place
  | vacant place => if place = location then existing place else vacant place

@[simp]
theorem Destination.made_existing (location place : Location) :
    (existing place).made location = existing place :=
  rfl

@[simp]
theorem Destination.made_vacant_self (location : Location) :
    (vacant location).made location = existing location :=
  if_pos rfl

theorem Destination.made_vacant_of_ne {place : Location} (hplace : place ≠ location) :
    (vacant place).made location = vacant place :=
  if_neg hplace

/-- A file can be put at the location: there is nothing there, or a file already. -/
def CanHoldFile (tree : FileTree) (location : Location) : Prop :=
  ∀ node, tree.node? location = some node → ∃ content, node = .file content

theorem node?_put_file_eq_directory_iff (hfile : tree.CanHoldFile location) (content : Bytes)
    (place : Location) :
    (tree.put location (.file content)).node? place = some .directory ↔
      tree.node? place = some .directory := by
  by_cases hplace : place = location
  · subst hplace
    rw [node?_put_self]
    refine ⟨fun h ↦ ?_, fun h ↦ ?_⟩
    · cases h
    · obtain ⟨other, hother⟩ := hfile _ h
      cases hother
  · rw [node?_put_of_ne _ _ hplace]

/-- No file can be put where a link stands. -/
theorem node?_put_file_of_link (hfile : tree.CanHoldFile location) {place : Location}
    {target : String} (hlink : tree.node? place = some (.link target)) :
    (tree.put location (.file content)).node? place = some (.link target) := by
  have hplace : place ≠ location := by
    rintro rfl
    obtain ⟨other, hother⟩ := hfile _ hlink
    cases hother
  rw [node?_put_of_ne _ _ hplace, hlink]

/-- What is there and is no link is no link afterwards. -/
theorem exists_node?_put_file (location : Location) (content : Bytes) {place : Location}
    {node : Node} (hnode : ∀ target, node ≠ .link target) (hsome : tree.node? place = some node) :
    ∃ after, (tree.put location (.file content)).node? place = some after ∧
      ∀ target, after ≠ .link target := by
  by_cases hplace : place = location
  · subst hplace
    exact ⟨.file content, node?_put_self _ _ _, fun _ h ↦ by cases h⟩
  · exact ⟨node, (node?_put_of_ne _ _ hplace).trans hsome, hnode⟩

/-- Putting a file where it can stand leaves all paths as they are, but for those that led to the
place while there was nothing. -/
theorem walk_put_file (hfile : tree.CanHoldFile location) :
    (tree.put location (.file content)).walk limit links start pieces =
      (tree.walk limit links start pieces).map (Destination.made location) := by
  have hdirectory := fun place ↦ node?_put_file_eq_directory_iff hfile content place
  have hstill : ∀ {place}, tree.node? place = some .directory →
      (tree.put location (.file content)).node? place = some .directory :=
    fun {place} ↦ (hdirectory place).mpr
  -- The induction is on the walk in the tree as it was: the other one never leaves it, except for
  -- a last step on to the new file.
  induction links, start, pieces using walk.induct tree limit with
  | case1 links start => simp [walk]
  | case2 links start rest hstart ih =>
    rw [walk_here hstart, walk_here (hstill hstart), ih]
  | case3 links start rest hstart ih =>
    rw [walk_up hstart, walk_up (hstill hstart), ih]
  | case4 links start rest hstart name place hbarred =>
    rw [walk_name_of_barred hstart hbarred,
      walk_name_of_barred (hstill hstart) hbarred, Option.map_none]
  | case5 links start rest hstart name place hopen hnone hlast =>
    obtain rfl := List.isEmpty_iff.mp hlast
    rw [walk_name_of_none hstart hopen hnone, if_pos hlast, Option.map_some]
    by_cases hplace : place = location
    · subst hplace
      rw [Destination.made_vacant_self, walk_name_of_some (hstill hstart) hopen
        (fun _ h ↦ by cases h) (node?_put_self _ _ _)]
      simp [walk, place]
    · rw [walk_name_of_none (hstill hstart) hopen
        ((node?_put_of_ne _ _ hplace).trans hnone), if_pos hlast,
        Destination.made_vacant_of_ne hplace]
  | case6 links start rest hstart name place hopen hnone hlast =>
    rw [walk_name_of_none hstart hopen hnone, if_neg hlast, Option.map_none]
    by_cases hplace : place = location
    · subst hplace
      obtain ⟨piece, later, rfl⟩ := List.exists_cons_of_ne_nil (mt List.isEmpty_iff.mpr hlast)
      have hput := node?_put_self tree place (.file content)
      -- The walk goes one step further than before, to a file that leads nowhere.
      rw [walk_name_of_some (hstill hstart) hopen (fun _ h ↦ by cases h) hput,
        walk_of_ne_directory (by rw [hput]; simp), ite_self]
    · rw [walk_name_of_none (hstill hstart) hopen
        ((node?_put_of_ne _ _ hplace).trans hnone), if_neg hlast]
  | case7 start rest hstart name place hopen target hlink =>
    rw [walk_name_of_link_zero hstart hopen hlink,
      walk_name_of_link_zero (hstill hstart) hopen
        (node?_put_file_of_link hfile hlink), Option.map_none]
  | case8 start rest hstart name place hopen target hlink links husable ih =>
    rw [walk_name_of_link_succ hstart hopen hlink,
      walk_name_of_link_succ (hstill hstart) hopen
        (node?_put_file_of_link hfile hlink), if_pos husable, if_pos husable, ih]
  | case9 start rest hstart name place hopen target hlink links husable =>
    rw [walk_name_of_link_succ hstart hopen hlink,
      walk_name_of_link_succ (hstill hstart) hopen
        (node?_put_file_of_link hfile hlink), if_neg husable, if_neg husable, Option.map_none]
  | case10 links start rest hstart name place hopen node hnode hsome hwithin ih =>
    obtain ⟨after, hafter, hlink⟩ := exists_node?_put_file location content hnode hsome
    rw [walk_name_of_some hstart hopen hnode hsome, if_pos hwithin,
      walk_name_of_some (hstill hstart) hopen hlink hafter, if_pos hwithin, ih]
  | case11 links start rest hstart name place hopen node hnode hsome hwithin =>
    obtain ⟨after, hafter, hlink⟩ := exists_node?_put_file location content hnode hsome
    rw [walk_name_of_some hstart hopen hnode hsome, if_neg hwithin,
      walk_name_of_some (hstill hstart) hopen hlink hafter, if_neg hwithin,
      Option.map_none]
  | case12 links start piece rest hstart =>
    rw [walk_of_ne_directory hstart,
      walk_of_ne_directory (mt (hdirectory start).mp hstart), Option.map_none]

/-- A path that leads to where a file can be made leads to where nothing is. -/
theorem node?_eq_none_of_walk
    (h : tree.walk limit links start pieces = some (.vacant location)) :
    tree.node? location = none := by
  fun_induction walk tree limit links start pieces with
  | case5 links start rest hstart name place hopen hnone hlast =>
    obtain rfl := Destination.vacant.inj (Option.some.inj h)
    exact hnone
  | case2 links start rest hstart ih => exact ih h
  | case3 links start rest hstart ih => exact ih h
  | case8 start rest hstart name place hopen target hlink links husable ih => exact ih h
  | case10 links start rest hstart name place hopen node hnode hsome hwithin ih => exact ih h
  | _ => cases h

theorem node?_eq_none_of_reach? {cwd : Location} {path : String}
    (h : tree.reach? cwd path = some (.vacant location)) : tree.node? location = none := by
  rw [reach?, follow?] at h
  split at h
  · split at h
    · exact node?_eq_none_of_walk h
    · cases h
  · cases h

theorem reach?_put_file (hfile : tree.CanHoldFile location) (cwd : Location) (path : String) :
    (tree.put location (.file content)).reach? cwd path =
      (tree.reach? cwd path).map (Destination.made location) := by
  rw [reach?, reach?, follow?, follow?]
  split
  · split
    · exact walk_put_file hfile
    · rfl
  · rfl

/-! ### Paths to files -/

/-- A path leads to a file, whose content is given, or to where a file can be made. A directory and
a missing one, the null device, a standard stream, and a path that cannot be followed at all give
no file that could be added to. -/
inductive LeadsToFile (tree : FileTree) (cwd : Location) (path : String) : Location → Bytes → Prop
  | file {location : Location} {content : Bytes}
      (leads : tree.reach? cwd path = some (.existing location))
      (holds : tree.node? location = some (.file content)) :
      LeadsToFile tree cwd path location content
  | vacant {location : Location} (leads : tree.reach? cwd path = some (.vacant location)) :
      LeadsToFile tree cwd path location []

section Files

variable {cwd location : Location} {path : String}

theorem LeadsToFile.canHoldFile (h : tree.LeadsToFile cwd path location content) :
    tree.CanHoldFile location := by
  intro node hnode
  cases h with
  | file leads holds => exact ⟨content, Option.some.inj (hnode.symm.trans holds)⟩
  | vacant leads =>
    rw [node?_eq_none_of_reach? leads] at hnode
    cases hnode

theorem append_of_leadsToFile (h : tree.LeadsToFile cwd path location content) (bytes : Bytes) :
    tree.append cwd path bytes = tree.put location (.file (content ++ bytes)) := by
  unfold append
  cases h with
  | file leads holds => simp only [leads, holds]
  | vacant leads => simp only [leads, List.nil_append]

/-- From then on the path leads to the file. -/
theorem reach?_append (h : tree.LeadsToFile cwd path location content) (bytes : Bytes) :
    (tree.append cwd path bytes).reach? cwd path = some (.existing location) := by
  rw [append_of_leadsToFile h, reach?_put_file h.canHoldFile]
  cases h with
  | file leads holds => rw [leads, Option.map_some, Destination.made_existing]
  | vacant leads => rw [leads, Option.map_some, Destination.made_vacant_self]

/-! ### What is in the file -/

/-- What stands in the file that can be added to under a path: nothing if it is still to be made. -/
def openLog? (tree : FileTree) (cwd : Location) (path : String) : Option Bytes :=
  match tree.reach? cwd path with
  | some (.vacant _) => some []
  | some (.existing location) =>
    match tree.node? location with
    | some (.file content) => some content
    | _ => none
  | none => none

theorem exists_leadsToFile_of_openLog? (h : tree.openLog? cwd path = some content) :
    ∃ location, tree.LeadsToFile cwd path location content := by
  rw [openLog?] at h
  split at h
  · next location leads =>
    obtain rfl := Option.some.inj h
    exact ⟨location, .vacant leads⟩
  · next location leads =>
    split at h
    · next before holds =>
      obtain rfl := Option.some.inj h
      exact ⟨location, .file leads holds⟩
    · cases h
  · cases h

theorem openLog?_append (h : tree.openLog? cwd path = some content) (bytes : Bytes) :
    (tree.append cwd path bytes).openLog? cwd path = some (content ++ bytes) := by
  obtain ⟨location, hleads⟩ := exists_leadsToFile_of_openLog? h
  rw [openLog?, reach?_append hleads, append_of_leadsToFile hleads]
  simp

theorem read?_append (h : tree.openLog? cwd path = some content) (bytes : Bytes) :
    (tree.append cwd path bytes).read? cwd path = some (content ++ bytes) := by
  obtain ⟨location, hleads⟩ := exists_leadsToFile_of_openLog? h
  rw [read?, reach?_append hleads, append_of_leadsToFile hleads]
  simp [contentAt?]

end Files

end FileTree

end CommandScript
