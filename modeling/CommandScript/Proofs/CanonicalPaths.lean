import CommandScript.Proofs.FileAppending
import CommandScript.Proofs.Provenance
/-!
# Canonical paths

Where a path leads is a location within directories, under names that paths can spell
(`isReached_of_walk`). The path of such a location is made of these names and nothing else
(`pieces_path`), so it leads there through one directory after the other, past no link. Resolving
the path that a resolved path has gives the same location therefore, wherever it is followed
(`resolve?_path`).
-/

set_option autoImplicit false
set_option relaxedAutoImplicit false

namespace CommandScript

/-! ### Parts between separators -/

section Parts

variable {separator : Char} {text part : List Char}

/-- A part holds characters of the text, other than the separator. -/
theorem mem_of_mem_splitOn (hpart : part ∈ text.splitOn separator) :
    ∀ c ∈ part, c ∈ text ∧ c ≠ separator := by
  induction text generalizing part with
  | nil =>
    obtain rfl := List.mem_singleton.mp hpart
    exact fun c hc ↦ absurd hc List.not_mem_nil
  | cons d rest ih =>
    have hrest : ∀ other ∈ rest.splitOn separator, ∀ c ∈ other, c ∈ d :: rest ∧ c ≠ separator :=
      fun other hother c hc ↦ ⟨List.mem_cons_of_mem _ (ih hother c hc).1, (ih hother c hc).2⟩
    rw [List.splitOn_cons_eq_if_modifyHead] at hpart
    obtain ⟨first, later, hparts⟩ := List.exists_cons_of_ne_nil (List.splitOn_ne_nil separator rest)
    rw [hparts] at hpart hrest
    split_ifs at hpart with hd
    · rcases List.mem_cons.mp hpart with rfl | hmem
      · exact fun c hc ↦ absurd hc List.not_mem_nil
      · exact hrest part hmem
    · rcases List.mem_cons.mp hpart with rfl | hmem
      · intro c hc
        rcases List.mem_cons.mp hc with rfl | hc
        · exact ⟨List.mem_cons_self, mt beq_iff_eq.mpr hd⟩
        · exact hrest first List.mem_cons_self c hc
      · exact hrest part (List.mem_cons_of_mem _ hmem)

end Parts

/-! ### Names on a path -/

namespace Path

/-- A name that a path can spell: it stands for itself, and a path can hold it as one part. -/
structure IsSpellable (name : String) : Prop where
  isName : Piece.ofString name = .name name
  slash_notMem : '/' ∉ name.toList
  nul_notMem : '\x00' ∉ name.toList

theorem Piece.eq_of_ofString_eq_name {text name : String} (h : ofString text = .name name) :
    text = name := by
  unfold ofString at h
  split_ifs at h
  exact Piece.name.inj h

theorem isSpellable_of_mem_pieces {path name : String} (husable : isUsable path = true)
    (h : .name name ∈ pieces path) : IsSpellable name := by
  obtain ⟨part, hpart, hname⟩ := List.mem_map.mp h
  obtain rfl := Piece.eq_of_ofString_eq_name hname
  have hchars := mem_of_mem_splitOn hpart
  have hnul : '\x00' ∉ path.toList := by
    have hparts := (Bool.and_eq_true _ _).mp husable
    simpa using hparts.2
  refine ⟨hname, ?_, ?_⟩
  · rw [String.toList_ofList]
    exact fun hslash ↦ (hchars '/' hslash).2 rfl
  · rw [String.toList_ofList]
    exact fun hmem ↦ hnul (hchars _ hmem).1

end Path

namespace Location

variable {location : Location}

/-- The parts of a location's path are its names, behind an empty one. -/
theorem splitOn_path (hne : location ≠ root) (hnames : ∀ name ∈ location, '/' ∉ name.toList) :
    location.path.toList.splitOn '/' = [] :: location.reverse.map String.toList := by
  induction location with
  | nil => exact absurd rfl hne
  | cons name parent ih =>
    have hname : name.toList.splitOn '/' = [name.toList] :=
      List.splitOn_eq_singleton (hnames name List.mem_cons_self)
    cases parent with
    | nil =>
      have hpath : (path [name]).toList = [] ++ '/' :: name.toList := by simp [path]
      rw [hpath, List.splitOn_append_cons_self, hname]
      rfl
    | cons above parent =>
      have hpath : (path (name :: above :: parent)).toList =
          (path (above :: parent)).toList ++ '/' :: name.toList := by simp [path]
      have hparent := ih (List.cons_ne_nil _ _) fun other hother ↦
        hnames other (List.mem_cons_of_mem _ hother)
      rw [hpath, List.splitOn_append_cons_self, hparent, hname, List.reverse_cons (a := name),
        List.map_append, List.cons_append]
      rfl

theorem pieces_path (hne : location ≠ root) (hnames : ∀ name ∈ location, Path.IsSpellable name) :
    Path.pieces location.path = .here :: location.reverse.map .name := by
  unfold Path.pieces
  rw [splitOn_path hne fun name hname ↦ (hnames name hname).slash_notMem, List.map_cons,
    List.map_map]
  refine congrArg₂ List.cons rfl (List.map_congr_left fun name hname ↦ ?_)
  rw [Function.comp_apply, String.ofList_toList]
  exact (hnames name (List.mem_reverse.mp hname)).isName

theorem isUsable_path (hnames : ∀ name ∈ location, Path.IsSpellable name) :
    Path.isUsable location.path = true := by
  have hchars : '\x00' ∉ location.path.toList := by
    induction location with
    | nil => simp [path]
    | cons name parent ih =>
      have hname := (hnames name List.mem_cons_self).nul_notMem
      cases parent with
      | nil => simpa [path] using hname
      | cons above parent =>
        have hparent := ih fun other hother ↦ hnames other (List.mem_cons_of_mem _ hother)
        simpa [path, hname] using hparent
  have hne : location.path ≠ "" := by
    intro hempty
    have habsolute := location.isAbsolute_path
    rw [hempty] at habsolute
    exact absurd habsolute (by simp [Path.isAbsolute])
  simp [Path.isUsable, hne, hchars]

end Location

/-! ### Where walks lead -/

namespace FileTree

/-- A location within directories: the places on the way to it are directories, under names that
files can have. What stands at the location itself is left open. -/
inductive InDirectories (tree : FileTree) : Location → Prop
  | root (hroot : tree.node? Location.root = some .directory) : InDirectories tree Location.root
  | entry {name : String} {parent : Location} (hparent : tree.node? parent = some .directory)
      (hname : Path.IsSpellable name) (hsize : name.utf8ByteSize ≤ Path.maxNameSize)
      (habove : InDirectories tree parent) : InDirectories tree (name :: parent)

/-- A place where a program can work: a directory within directories. -/
structure IsWorkingDirectory (tree : FileTree) (location : Location) : Prop where
  isDirectory : tree.node? location = some .directory
  inDirectories : tree.InDirectories location

/-- What a walk may come to: something within directories that is no link. The path of what is no
directory is within the limit. -/
structure IsReached (tree : FileTree) (limit : Option Nat) (location : Location) : Prop where
  inDirectories : tree.InDirectories location
  isThere : tree.node? location = some .directory ∨
    isWithin limit location.size = true ∧
      ∃ node, tree.node? location = some node ∧ ∀ target, node ≠ .link target

section Walks

variable {tree : FileTree} {limit : Option Nat} {links : Nat} {start location : Location}
  {pieces rest : List Path.Piece} {name : String}

theorem InDirectories.isSpellable (h : tree.InDirectories location) :
    ∀ name ∈ location, Path.IsSpellable name := by
  induction h with
  | root hroot => exact fun name hname ↦ absurd hname List.not_mem_nil
  | entry hparent hname hsize habove ih =>
    intro other hother
    rcases List.mem_cons.mp hother with rfl | hother
    · exact hname
    · exact ih other hother

theorem InDirectories.node?_root (h : tree.InDirectories location) :
    tree.node? Location.root = some .directory := by
  induction h with
  | root hroot => exact hroot
  | entry _ _ _ _ ih => exact ih

/-- A step up from a directory leads to a directory. -/
theorem IsWorkingDirectory.tail (h : tree.IsWorkingDirectory location) :
    tree.IsWorkingDirectory location.tail := by
  obtain ⟨hdirectory, hlocation⟩ := h
  cases hlocation with
  | root hroot => exact ⟨hroot, .root hroot⟩
  | entry hparent hname hsize habove => exact ⟨hparent, habove⟩

/-- A path is followed from a directory, be it the one that is worked in or the root. -/
theorem isWorkingDirectory_start (h : tree.IsWorkingDirectory location) (path : String) :
    tree.IsWorkingDirectory (Path.start path location) := by
  unfold Path.start
  split_ifs
  · exact ⟨h.inDirectories.node?_root, .root h.inDirectories.node?_root⟩
  · exact h

theorem IsWorkingDirectory.isReached (h : tree.IsWorkingDirectory location) (limit : Option Nat) :
    tree.IsReached limit location :=
  ⟨h.inDirectories, Or.inl h.isDirectory⟩

theorem isWithin_mono {small large : Nat} (hle : small ≤ large)
    (h : isWithin limit large = true) : isWithin limit small = true := by
  cases limit with
  | none => rfl
  | some most => exact decide_eq_true (hle.trans (of_decide_eq_true h))

theorem not_isBarred_iff :
    ¬ isBarred limit start name = true ↔
      name.utf8ByteSize ≤ Path.maxNameSize ∧
        isWithin limit (Location.size (name :: start)) = true := by
  unfold isBarred
  simp

/-- A walk from a place that can be reached, along names that paths can spell, ends at one. -/
theorem isReached_of_walk (hstart : tree.IsReached limit start)
    (hpieces : ∀ name, .name name ∈ pieces → Path.IsSpellable name)
    (h : tree.walk limit links start pieces = some (.existing location)) :
    tree.IsReached limit location := by
  fun_induction walk tree limit links start pieces with
  | case1 links start =>
    obtain rfl := Destination.existing.inj (Option.some.inj h)
    exact hstart
  | case2 links start rest hdirectory ih =>
    exact ih hstart (fun name hname ↦ hpieces name (List.mem_cons_of_mem _ hname)) h
  | case3 links start rest hdirectory ih =>
    have hworking : tree.IsWorkingDirectory start := ⟨hdirectory, hstart.inDirectories⟩
    exact ih (hworking.tail.isReached limit)
      (fun name hname ↦ hpieces name (List.mem_cons_of_mem _ hname)) h
  | case8 start rest hdirectory name place hopen target hlink links husable ih =>
    -- The target of a link is followed from the directory that holds the link, or from the root.
    have hworking : tree.IsWorkingDirectory start := ⟨hdirectory, hstart.inDirectories⟩
    refine ih ((isWorkingDirectory_start hworking target).isReached limit) (fun other hother ↦ ?_) h
    rcases List.mem_append.mp hother with htarget | hrest
    · exact Path.isSpellable_of_mem_pieces husable htarget
    · exact hpieces other (List.mem_cons_of_mem _ hrest)
  | case10 links start rest hdirectory name place hopen node hnode hsome hwithin ih =>
    obtain ⟨hsize, hplace⟩ := not_isBarred_iff.mp hopen
    have hentry : tree.InDirectories place :=
      .entry hdirectory (hpieces name List.mem_cons_self) hsize hstart.inDirectories
    exact ih ⟨hentry, Or.inr ⟨hplace, node, hsome, hnode⟩⟩
      (fun other hother ↦ hpieces other (List.mem_cons_of_mem _ hother)) h
  | _ => cases h

/-- From the root, the names of a location lead to it and through nothing but directories. -/
theorem walk_names (h : tree.InDirectories location)
    (hthere : ∃ node, tree.node? location = some node ∧ ∀ target, node ≠ .link target)
    (hsize : isWithin limit location.size = true)
    (hrest : (rest.isEmpty || isWithin limit (location.size + 1)) = true) :
    tree.walk limit links Location.root (location.reverse.map .name ++ rest) =
      tree.walk limit links location rest := by
  induction h generalizing rest with
  | root hroot => rfl
  | @entry name parent hparent hname hlength habove ih =>
    obtain ⟨node, hnode, hlink⟩ := hthere
    have hparentSize : parent.size + 1 ≤ Location.size (name :: parent) := by
      simp only [Location.size]
      omega
    have hparentWithin := isWithin_mono hparentSize hsize
    rw [List.reverse_cons, List.map_append, List.append_assoc, List.map_singleton,
      List.singleton_append]
    calc tree.walk limit links Location.root (parent.reverse.map .name ++ .name name :: rest)
        = tree.walk limit links parent (.name name :: rest) :=
          ih ⟨.directory, hparent, fun target htarget ↦ by cases htarget⟩
            (isWithin_mono (Nat.le_succ _) hparentWithin) (by simp [hparentWithin])
      _ = tree.walk limit links (name :: parent) rest := by
          rw [walk_name_of_some hparent (not_isBarred_iff.mpr ⟨hlength, hsize⟩) hlink hnode,
            if_pos hrest]

end Walks

/-! ### Resolved paths -/

section Resolving

variable {tree : FileTree} {cwd location : Location} {path : String}

theorem isReached_of_resolve? (hcwd : tree.IsWorkingDirectory cwd)
    (h : tree.resolve? cwd path = some location) :
    tree.IsReached (some Path.maxSize) location := by
  unfold resolve? follow? at h
  split at h
  · next found hfound =>
    obtain rfl := Option.some.inj h
    split_ifs at hfound with husable
    exact isReached_of_walk ((isWorkingDirectory_start hcwd path).isReached _)
      (fun name hname ↦ Path.isSpellable_of_mem_pieces husable hname) hfound
  · cases h

/-- What was resolved to something other than a directory is resolved again from its own path to
the same location, wherever the path is followed. -/
theorem resolve?_path (hreached : tree.IsReached (some Path.maxSize) location)
    (hfile : tree.node? location ≠ some .directory) (other : Location) :
    tree.resolve? other location.path = some location := by
  obtain ⟨hlocation, hthere⟩ := hreached
  obtain ⟨hsize, hnode⟩ := hthere.resolve_left hfile
  have hroot := hlocation.node?_root
  have hne : location ≠ Location.root := by
    rintro rfl
    exact hfile hroot
  have hstart : Path.start location.path other = Location.root := by
    unfold Path.start
    rw [if_pos location.isAbsolute_path]
  have hwalk : tree.walk (some Path.maxSize) maxLinks Location.root
      (Path.pieces location.path) = some (.existing location) := by
    have hnames := @walk_names tree (some Path.maxSize) maxLinks location [] hlocation hnode hsize
      rfl
    rw [List.append_nil] at hnames
    rw [location.pieces_path hne hlocation.isSpellable, walk_here hroot, hnames, walk]
  unfold resolve? follow?
  rw [if_pos (location.isUsable_path hlocation.isSpellable), hstart, hwalk]

/-- A script that a name stands for is what its canonical path stands for, wherever it is looked
up. -/
theorem library_path {name : String} {file : ScriptFile} (hcwd : tree.IsWorkingDirectory cwd)
    (h : tree.library cwd name = some file) (other : Location) :
    tree.library other file.path = some file := by
  obtain ⟨location, hlocation, hcontent, hpath⟩ := library_eq_some h
  have hfile : tree.node? location ≠ some .directory := by
    intro hdirectory
    unfold contentAt? at hcontent
    rw [hdirectory] at hcontent
    cases hcontent
  have hagain := resolve?_path (isReached_of_resolve? hcwd hlocation) hfile other
  rw [← hpath] at hagain
  unfold library
  rw [hagain, Option.bind_eq_bind, Option.bind_some, hcontent, Option.bind_eq_bind,
    Option.bind_some, ← hpath]
  rfl

end Resolving

end FileTree

end CommandScript
