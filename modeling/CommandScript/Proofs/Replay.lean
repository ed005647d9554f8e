import CommandScript.Proofs.CanonicalPaths
/-!
# Replays

A stream tells the scripts that it was read from by their canonical paths, and a canonical path
stands for its script in every working directory. So the argument list with these paths in place of
the names in front of its first dash gives the stream again, from anywhere in the tree
(`parse_replays`). The stream is composed of the same scripts and the same groups as before
(`IsComposedOf.withScriptNames`), and a composition determines what is read
(`IsComposedOf.parse_eq_ok`).
-/

set_option autoImplicit false
set_option relaxedAutoImplicit false

namespace CommandScript

/-- A script that was loaded is loaded again by its canonical path, from any directory. -/
theorem FileTree.load_path {tree : FileTree} {cwd : Location} {policy : NamePolicy} {name : String}
    {script : LoadedScript} (hcwd : tree.IsWorkingDirectory cwd)
    (h : (tree.library cwd).load policy name = .ok script) (other : Location) :
    (tree.library other).load policy script.path = .ok script := by
  obtain ⟨content, hfile, hparse⟩ := ScriptLibrary.load_eq_ok_iff.mp h
  exact ScriptLibrary.load_eq_ok_iff.mpr ⟨content, library_path hcwd hfile other, hparse⟩

theorem FileTree.isAbsolute_of_load {tree : FileTree} {cwd : Location} {policy : NamePolicy}
    {name : String} {script : LoadedScript}
    (h : (tree.library cwd).load policy name = .ok script) :
    Path.isAbsolute script.path = true := by
  obtain ⟨content, hfile, -⟩ := ScriptLibrary.load_eq_ok_iff.mp h
  obtain ⟨location, -, -, hpath⟩ := library_eq_some hfile
  rw [show script.path = location.path from hpath]
  exact location.isAbsolute_path

/-- An absolute path does not look like a dash. -/
theorem Path.startsWithDash_of_isAbsolute {path : String} (h : isAbsolute path = true) :
    startsWithDash path = false := by
  rw [isAbsolute, beq_iff_eq] at h
  unfold startsWithDash
  rw [h]
  rfl

namespace Arguments

/-- An argument list with other names in front of its first dash. -/
def withScriptNames (names args : List String) : List String :=
  names ++ args.dropWhile fun arg ↦ !startsWithDash arg

section Names

variable {names args : List String}

theorem scriptNames_withScriptNames (hnames : ∀ name ∈ names, startsWithDash name = false) :
    scriptNames (withScriptNames names args) = names :=
  scriptNames_append hnames startsWithDash_of_head?_dropWhile

end Names

section Composition

variable {library other : ScriptLibrary} {policy : NamePolicy} {names args : List String}
  {stream : CommandStream} {scripts : List LoadedScript} {groups : List CommandGroup}

/-- An argument list gives the stream that is composed of its parts. -/
theorem IsComposedOf.parse_eq_ok (h : IsComposedOf library policy args stream scripts groups) :
    parse library policy args = .ok stream := by
  obtain ⟨later, hlater, hread⟩ := readFrom_groups h.valid
    (.continuing ([] ++ scripts.flatMap LoadedScript.contribution)) (stdinRequest stream.fromStdin)
  refine parse_eq_ok_iff.mpr ⟨{ draft := later, awaitsName := stream.fromStdin }, ?_, ?_⟩
  · rw [h.spelling, List.append_assoc]
    refine (readFrom_scripts_eq_ok_iff startsWithDash_of_mem_scriptNames [] _ _).mpr
      ⟨scripts, h.loaded, ?_⟩
    rw [hread, readFrom_stdinRequest]
  · rw [State.result, hlater, Draft.commands_continuing, List.nil_append, ← h.commands]

/-- The parts stay the same under other names for the scripts, also in another library. -/
theorem IsComposedOf.withScriptNames (h : IsComposedOf library policy args stream scripts groups)
    (hnames : ∀ name ∈ names, startsWithDash name = false)
    (hloaded : List.Forall₂ (fun name script ↦ other.load policy name = .ok script) names scripts) :
    IsComposedOf other policy (withScriptNames names args) stream scripts groups where
  spelling := by
    have hrest : (args.dropWhile fun arg ↦ !startsWithDash arg) =
        groups.flatMap CommandGroup.spelling ++ stdinRequest stream.fromStdin := by
      apply List.append_cancel_left
      rw [← List.append_assoc, ← h.spelling]
      exact List.takeWhile_append_dropWhile
    rw [scriptNames_withScriptNames hnames, Arguments.withScriptNames, hrest, List.append_assoc]
  loaded := by rwa [scriptNames_withScriptNames hnames]
  valid := h.valid
  commands := h.commands

end Composition

/-- A run that succeeds gives the same stream again from any directory, once the names of scripts
are replaced by the files that the stream tells; and each script on its own is loaded again by its
canonical path, with that same path and the same commands. -/
theorem parse_replays {tree : FileTree} {cwd : Location} (hcwd : tree.IsWorkingDirectory cwd)
    (policy : NamePolicy) (other : Location) :
    (∀ (args : List String) (stream : CommandStream),
      parse (tree.library cwd) policy args = .ok stream →
        parse (tree.library other) policy (withScriptNames stream.files args) = .ok stream) ∧
      ∀ (name : String) (script : LoadedScript),
        (tree.library cwd).load policy name = .ok script →
          (tree.library other).load policy script.path = .ok script := by
  refine ⟨fun args stream h ↦ ?_, fun name script h ↦ FileTree.load_path hcwd h other⟩
  obtain ⟨scripts, groups, hparts⟩ := exists_isComposedOf_of_parse h
  have hreload : ∀ script ∈ scripts, Path.isAbsolute script.path = true ∧
      (tree.library other).load policy script.path = .ok script := by
    have hloaded : List.Forall₂ (fun script name ↦
        (Path.isAbsolute script.path = true ∧
          (tree.library other).load policy script.path = .ok script) ∧
            (tree.library cwd).load policy name = .ok script) scripts (scriptNames args) :=
      .flip (hparts.loaded.imp fun name script hload ↦
        ⟨⟨FileTree.isAbsolute_of_load hload, FileTree.load_path hcwd hload other⟩, hload⟩)
    exact ((List.forall₂_and_left _ _).mp hloaded).1
  refine (hparts.withScriptNames ?_ ?_).parse_eq_ok
  · intro path hpath
    rw [hparts.files] at hpath
    obtain ⟨script, hscript, rfl⟩ := List.mem_map.mp hpath
    exact Path.startsWithDash_of_isAbsolute (hreload script hscript).1
  · rw [hparts.files, List.forall₂_map_left_iff, List.forall₂_same]
    exact fun script hscript ↦ (hreload script hscript).2

end Arguments

/-! ### A replay past a link -/

/-- A script at `/lib/boot.fab`, and a link `/work/jump` to a directory beside it. -/
def linkedTree : FileTree where
  node?
    | [] => some .directory
    | ["work"] => some .directory
    | ["lib"] => some .directory
    | ["in", "lib"] => some .directory
    | ["jump", "work"] => some (.link "../lib/in")
    | ["boot.fab", "lib"] => some (.file (Utf8.encode "Load x\n"))
    | _ => none

theorem isWorkingDirectory_work : linkedTree.IsWorkingDirectory ["work"] :=
  ⟨rfl, .entry rfl ⟨by decide, by decide, by decide⟩ (by decide) (.root rfl)⟩

theorem resolve?_linkedTree :
    linkedTree.resolve? ["work"] "jump/../boot.fab" = some ["boot.fab", "lib"] := by
  have husable : Path.isUsable "jump/../boot.fab" = true := by decide
  have hstart : Path.start "jump/../boot.fab" ["work"] = ["work"] := by decide
  have hpieces : Path.pieces "jump/../boot.fab" = [.name "jump", .up, .name "boot.fab"] := by decide
  have htarget : Path.isUsable "../lib/in" = true := by decide
  have htargetStart : Path.start "../lib/in" ["work"] = ["work"] := by decide
  have htargetPieces : Path.pieces "../lib/in" = [.up, .name "lib", .name "in"] := by decide
  have hjump : "jump".utf8ByteSize = 4 := rfl
  have hlib : "lib".utf8ByteSize = 3 := rfl
  have hin : "in".utf8ByteSize = 2 := rfl
  have hboot : "boot.fab".utf8ByteSize = 8 := rfl
  have hwork : "work".utf8ByteSize = 4 := rfl
  unfold FileTree.resolve? FileTree.follow?
  rw [if_pos husable, hstart, hpieces]
  simp [FileTree.walk, linkedTree, FileTree.maxLinks, htarget, htargetStart, htargetPieces,
    Path.maxNameSize, FileTree.isWithin, Path.maxSize, Location.size, hjump, hlib, hin,
    hboot, hwork]

/-- Read from `/work` by way of the link and the step up behind it, and again from the root. -/
theorem parse_replays_linkedTree :
    let stream : CommandStream :=
      { commands := [Command.fileMarker "/lib/boot.fab", { name := "load", args := ["x"] },
          { name := "go", args := ["1"] }]
        fromStdin := true }
    Arguments.parse (linkedTree.library ["work"]) .strict ["jump/../boot.fab", "-Go", "1", "-"] =
        .ok stream ∧
      Arguments.parse (linkedTree.library []) .strict ["/lib/boot.fab", "-Go", "1", "-"] =
        .ok stream := by
  intro stream
  have hfile : linkedTree.library ["work"] "jump/../boot.fab" =
      some { path := "/lib/boot.fab", content := Utf8.encode "Load x\n" } := by
    unfold FileTree.library
    rw [resolve?_linkedTree]
    rfl
  have hlines : Script.lines (Utf8.encode "Load x\n") = ["Load x"] :=
    @lines_encode_unlines ["Load x".toList] (by decide) (by decide)
  have hload : (linkedTree.library ["work"]).load .strict "jump/../boot.fab" =
      .ok { path := "/lib/boot.fab", commands := [{ name := "load", args := ["x"] }] } := by
    refine ScriptLibrary.load_eq_ok_iff.mpr ⟨Utf8.encode "Load x\n", hfile, ?_⟩
    rw [Script.parse, hlines]
    rfl
  have hread := @Arguments.readFrom_script (linkedTree.library ["work"]) .strict []
    "jump/../boot.fab" (by decide) ["-Go", "1", "-"]
  rw [hload] at hread
  have hparse : Arguments.parse (linkedTree.library ["work"]) .strict
      ["jump/../boot.fab", "-Go", "1", "-"] = .ok stream :=
    Arguments.parse_eq_ok_iff.mpr ⟨_, hread, rfl⟩
  exact ⟨hparse, (Arguments.parse_replays isWorkingDirectory_work .strict []).1 _ _ hparse⟩

end CommandScript
