import CommandScript.Proofs.ArgumentGrammar
import CommandScript.Proofs.FlatTrees
import CommandScript.Proofs.ScriptCommands
import CommandScript.Proofs.ScriptText
/-!
# Where the commands of a stream come from

A stream that was read is composed of what the scripts in front contribute and of the commands that
the argument list spells itself (`exists_isComposedOf_of_parse`). Commands of either kind have names
that the policy accepts, and no such name is that of a marker, so the markers of a stream are those
that the scripts have left and no others: one for each name in front of the first dash, in order,
with the path that the name resolves to (`parse_marks_scripts`).
-/

set_option autoImplicit false
set_option relaxedAutoImplicit false

namespace CommandScript

/-! ### Markers -/

section Markers

variable {policy : NamePolicy}

theorem filter_isFileMarker_of_isNamed {commands : List Command}
    (h : ∀ command ∈ commands, command.IsNamed policy) :
    commands.filter Command.isFileMarker = [] := by
  rw [List.filter_eq_nil_iff]
  intro command hcommand
  rw [(h command hcommand).not_isFileMarker]
  exact Bool.false_ne_true

/-- A script leaves one marker, whatever its commands are. -/
theorem LoadedScript.filter_isFileMarker_contribution {script : LoadedScript}
    (h : ∀ command ∈ script.commands, command.IsNamed policy) :
    script.contribution.filter Command.isFileMarker = [Command.fileMarker script.path] := by
  rw [contribution, List.filter_cons_of_pos (Command.isFileMarker_fileMarker _),
    filter_isFileMarker_of_isNamed h]

/-- The paths that a stream tells are those of its markers. -/
theorem CommandStream.files_eq_filterMap (stream : CommandStream) :
    stream.files = (stream.commands.filter Command.isFileMarker).filterMap fun marker ↦
      marker.args.head? := by
  rw [files, List.filterMap_filter]
  rfl

end Markers

/-! ### Scripts by name -/

section Scripts

variable {library : ScriptLibrary} {policy : NamePolicy} {name : String} {script : LoadedScript}

theorem ScriptLibrary.load_eq_ok_iff : library.load policy name = .ok script ↔
    ∃ content, library name = some { path := script.path, content } ∧
      Script.parse policy content = .ok script.commands := by
  rw [load]
  cases library name with
  | none => simp
  | some file =>
    obtain ⟨path, content⟩ := file
    obtain ⟨scriptPath, commands⟩ := script
    rw [map_eq_ok_iff]
    constructor
    · rintro ⟨parsed, hparsed, hscript⟩
      obtain ⟨rfl, rfl⟩ := LoadedScript.mk.inj hscript
      exact ⟨content, rfl, Script.parseAs_eq_ok_iff.mp hparsed⟩
    · rintro ⟨other, hfile, hparse⟩
      obtain ⟨rfl, rfl⟩ := ScriptFile.mk.inj (Option.some.inj hfile)
      exact ⟨commands, Script.parseAs_eq_ok_iff.mpr hparse, rfl⟩

/-- Every command of every script that was loaded is well-formed. -/
theorem ScriptLibrary.isWellFormed_of_load {names : List String} {scripts : List LoadedScript}
    (h : List.Forall₂ (fun name script ↦ library.load policy name = .ok script) names scripts) :
    ∀ script ∈ scripts, ∀ command ∈ script.commands, Script.IsWellFormed policy command := by
  induction h with
  | nil =>
    intro script hscript
    exact absurd hscript List.not_mem_nil
  | cons hload _ ih =>
    intro script hscript
    rcases List.mem_cons.mp hscript with rfl | hlater
    · obtain ⟨content, -, hparse⟩ := load_eq_ok_iff.mp hload
      exact Script.isWellFormed_of_parse hparse
    · exact ih script hlater

/-- A name in a tree stands for the file at the location that it resolves to, under its path. -/
theorem FileTree.library_eq_some {tree : FileTree} {cwd : Location} {file : ScriptFile}
    (h : tree.library cwd name = some file) :
    ∃ location, tree.resolve? cwd name = some location ∧
      tree.contentAt? location = some file.content ∧ file.path = location.path := by
  rw [library, Option.bind_eq_bind, Option.bind_eq_some_iff] at h
  obtain ⟨location, hlocation, hrest⟩ := h
  rw [Option.bind_eq_bind, Option.bind_eq_some_iff] at hrest
  obtain ⟨content, hcontent, hfile⟩ := hrest
  obtain rfl := Option.some.inj hfile
  exact ⟨location, hlocation, hcontent, rfl⟩

theorem Location.isAbsolute_path (location : Location) : Path.isAbsolute location.path = true := by
  have hslash : ∀ text : String, Path.isAbsolute text = true → ∀ later : String,
      Path.isAbsolute (text ++ later) = true := by
    intro text htext later
    rw [Path.isAbsolute, beq_iff_eq] at htext ⊢
    rw [String.toList_append, List.head?_append, htext]
    rfl
  induction location with
  | nil => rfl
  | cons name parent ih =>
    cases parent with
    | nil => exact hslash "/" rfl name
    | cons above parent =>
      change Path.isAbsolute (path (above :: parent) ++ "/" ++ name) = true
      exact hslash _ (hslash _ ih "/") name

end Scripts

namespace Arguments

/-! ### The parts of a stream -/

/-- The names that a list without a dash in front holds before a part that starts with one. -/
theorem scriptNames_append {names rest : List String}
    (hnames : ∀ name ∈ names, startsWithDash name = false)
    (hrest : ∀ arg ∈ rest.head?, startsWithDash arg = true) :
    scriptNames (names ++ rest) = names := by
  have hbare : ∀ name ∈ names, (!startsWithDash name) = true := by simpa using hnames
  rw [scriptNames, List.takeWhile_append_of_pos hbare]
  cases rest with
  | nil => rw [List.takeWhile_nil, List.append_nil]
  | cons arg rest => rw [List.takeWhile_cons_of_neg (by simp [hrest arg rfl]), List.append_nil]

/-- A stream is composed of the scripts named in front of the first dash and of the groups from
there on. -/
structure IsComposedOf (library : ScriptLibrary) (policy : NamePolicy) (args : List String)
    (stream : CommandStream) (scripts : List LoadedScript) (groups : List CommandGroup) :
    Prop where
  spelling : args =
    scriptNames args ++ groups.flatMap CommandGroup.spelling ++ stdinRequest stream.fromStdin
  loaded : List.Forall₂ (fun name script ↦ library.load policy name = .ok script)
    (scriptNames args) scripts
  valid : ∀ group ∈ groups, group.IsValid policy
  commands : stream.commands =
    scripts.flatMap LoadedScript.contribution ++ groups.map CommandGroup.command

section Composition

variable {library : ScriptLibrary} {policy : NamePolicy} {args : List String}
  {stream : CommandStream} {scripts : List LoadedScript} {groups : List CommandGroup}

theorem exists_isComposedOf_of_parse (h : parse library policy args = .ok stream) :
    ∃ scripts groups, IsComposedOf library policy args stream scripts groups := by
  obtain ⟨final, hread, rfl⟩ := parse_eq_ok_iff.mp h
  obtain ⟨names, rest, rfl, hnames, hrest⟩ := exists_bare_append args
  obtain ⟨scripts, hscripts, hgroups⟩ :=
    (readFrom_scripts_eq_ok_iff hnames [] rest final).mp hread
  obtain ⟨groups, fromStdin, hspelling, hvalid, hresult⟩ :=
    exists_groups_of_readFrom rest _ hrest hgroups
  have hscriptNames := scriptNames_append hnames hrest
  refine ⟨scripts, groups, ?_, ?_, hvalid, ?_⟩
  · rw [hscriptNames, hresult, List.append_assoc, ← hspelling]
  · rwa [hscriptNames]
  · rw [hresult, Draft.commands_continuing, List.nil_append]

namespace IsComposedOf

theorem isWellFormed_of_mem_script (h : IsComposedOf library policy args stream scripts groups)
    {script : LoadedScript} (hscript : script ∈ scripts) :
    ∀ command ∈ script.commands, Script.IsWellFormed policy command :=
  ScriptLibrary.isWellFormed_of_load h.loaded script hscript

theorem isNamed_of_mem_groups (h : IsComposedOf library policy args stream scripts groups) :
    ∀ command ∈ groups.map CommandGroup.command, command.IsNamed policy := by
  intro command hcommand
  obtain ⟨group, hgroup, rfl⟩ := List.mem_map.mp hcommand
  exact Command.isNamed_canonicalName (h.valid group hgroup).1 group.args

theorem isFileMarker_or_isNamed (h : IsComposedOf library policy args stream scripts groups) :
    ∀ command ∈ stream.commands,
      (∃ path, command = Command.fileMarker path) ∨ command.IsNamed policy := by
  intro command hcommand
  rw [h.commands, List.mem_append, List.mem_flatMap] at hcommand
  rcases hcommand with ⟨script, hscript, hmem⟩ | hmem
  · rcases List.mem_cons.mp hmem with rfl | hmem
    · exact Or.inl ⟨script.path, rfl⟩
    · exact Or.inr (h.isWellFormed_of_mem_script hscript command hmem).named
  · exact Or.inr (h.isNamed_of_mem_groups command hmem)

/-- The markers of the stream are those of its scripts. -/
theorem filter_isFileMarker (h : IsComposedOf library policy args stream scripts groups) :
    stream.commands.filter Command.isFileMarker =
      scripts.map fun script ↦ Command.fileMarker script.path := by
  have hscript : ∀ script ∈ scripts, script.contribution.filter Command.isFileMarker =
      [Command.fileMarker script.path] := fun script hmem ↦
    LoadedScript.filter_isFileMarker_contribution fun command hcommand ↦
      (h.isWellFormed_of_mem_script hmem command hcommand).named
  rw [h.commands, List.filter_append, filter_isFileMarker_of_isNamed h.isNamed_of_mem_groups,
    List.append_nil, List.filter_flatMap, List.flatMap_congr hscript, ← List.map_eq_flatMap]

theorem files (h : IsComposedOf library policy args stream scripts groups) :
    stream.files = scripts.map LoadedScript.path := by
  rw [CommandStream.files_eq_filterMap, h.filter_isFileMarker, List.filterMap_map]
  exact congrFun (@List.filterMap_eq_map _ _ LoadedScript.path) scripts

end IsComposedOf

end Composition

/-! ### Markers and scripts -/

/-- Every command of a stream is a marker or has a folded name that the policy accepts. The markers
carry the paths that the names in front of the first dash resolve to, in order. What a script gives
has no empty argument, and what the argument list gives itself has none that starts with a dash. -/
theorem parse_marks_scripts {tree : FileTree} {cwd : Location} {policy : NamePolicy}
    {args : List String} {stream : CommandStream}
    (h : parse (tree.library cwd) policy args = .ok stream) :
    (∀ command ∈ stream.commands, (∃ path, command = Command.fileMarker path) ∨
        command.isFileMarker = false ∧ policy.accepts command.name = true ∧
          canonicalName command.name = command.name) ∧
      stream.commands.filter Command.isFileMarker = stream.files.map Command.fileMarker ∧
      (scriptNames args).map (fun name ↦ (tree.resolve? cwd name).map Location.path) =
        stream.files.map some ∧
      (∀ path ∈ stream.files, Path.isAbsolute path = true) ∧
      ∃ (scripts : List LoadedScript) (groups : List CommandGroup),
        IsComposedOf (tree.library cwd) policy args stream scripts groups ∧
          (∀ script ∈ scripts, ∀ command ∈ script.commands, ∀ arg ∈ command.args, arg ≠ "") ∧
          ∀ group ∈ groups, ∀ arg ∈ group.command.args, startsWithDash arg = false := by
  obtain ⟨scripts, groups, hparts⟩ := exists_isComposedOf_of_parse h
  have hresolve : List.Forall₂
      (fun name script ↦ (tree.resolve? cwd name).map Location.path = some script.path)
      (scriptNames args) scripts := by
    refine hparts.loaded.imp fun name script hload ↦ ?_
    obtain ⟨content, hfile, -⟩ := ScriptLibrary.load_eq_ok_iff.mp hload
    obtain ⟨location, hlocation, -, hpath⟩ := FileTree.library_eq_some hfile
    rw [hlocation, Option.map_some, ← hpath]
  have hpaths : (scriptNames args).map (fun name ↦ (tree.resolve? cwd name).map Location.path) =
      stream.files.map some := by
    rw [hparts.files, List.map_map, ← List.forall₂_eq_eq_eq, List.forall₂_map_left_iff,
      List.forall₂_map_right_iff]
    exact hresolve
  refine ⟨fun command hcommand ↦ ?_, ?_, hpaths, fun path hpath ↦ ?_, scripts, groups, hparts,
    fun script hscript command hcommand ↦
      (hparts.isWellFormed_of_mem_script hscript command hcommand).args_ne_empty,
    fun group hgroup ↦ (hparts.valid group hgroup).2⟩
  · exact (hparts.isFileMarker_or_isNamed command hcommand).imp_right fun hnamed ↦
      ⟨hnamed.not_isFileMarker, hnamed.accepted, hnamed.folded⟩
  · rw [hparts.filter_isFileMarker, hparts.files, List.map_map]
    rfl
  · have hmem : some path ∈ stream.files.map some := List.mem_map_of_mem hpath
    rw [← hpaths] at hmem
    obtain ⟨name, -, hname⟩ := List.mem_map.mp hmem
    obtain ⟨location, -, rfl⟩ := Option.map_eq_some_iff.mp hname
    exact location.isAbsolute_path

end Arguments

/-! ### A script that imitates a marker -/

/-- A script with a command whose first argument looks like the name of a marker. -/
def imitation : Bytes := Utf8.encode "Load \"<file>\" x\n"

theorem load_imitation :
    ((FileTree.ofFiles [("boot.fab", imitation)]).library []).load .strict "./boot.fab" =
      .ok { path := "/boot.fab", commands := [{ name := "load", args := ["<file>", "x"] }] } := by
  have hfile : (FileTree.ofFiles [("boot.fab", imitation)]).library [] "./boot.fab" =
      some { path := "/boot.fab", content := imitation } :=
    @FileTree.library_ofFiles [("boot.fab", imitation)] "./boot.fab" "boot.fab" imitation
      (by decide) (by decide) (by decide) rfl
  have hlines : Script.lines imitation = ["Load \"<file>\" x"] :=
    @lines_encode_unlines ["Load \"<file>\" x".toList] (by decide) (by decide)
  refine ScriptLibrary.load_eq_ok_iff.mpr ⟨imitation, hfile, ?_⟩
  rw [Script.parse, hlines]
  rfl

/-- Arguments that read `<file>` do not count as markers, wherever they come from. -/
theorem parse_marks_scripts_imitation :
    let tree := FileTree.ofFiles [("boot.fab", imitation)]
    let stream : CommandStream :=
      { commands := [Command.fileMarker "/boot.fab", { name := "load", args := ["<file>", "x"] },
          { name := "go", args := ["<file>", ""] }] }
    Arguments.parse (tree.library []) .strict ["./boot.fab", "-Go", "<file>", ""] = .ok stream ∧
      stream.commands.filter Command.isFileMarker = stream.files.map Command.fileMarker ∧
      stream.files = ["/boot.fab"] := by
  intro tree stream
  have hread := @Arguments.readFrom_script (tree.library []) .strict [] "./boot.fab" (by decide)
    ["-Go", "<file>", ""]
  rw [load_imitation] at hread
  have hparse : Arguments.parse (tree.library []) .strict ["./boot.fab", "-Go", "<file>", ""] =
      .ok stream :=
    Arguments.parse_eq_ok_iff.mpr ⟨_, hread, rfl⟩
  exact ⟨hparse, (Arguments.parse_marks_scripts hparse).2.1, rfl⟩

end CommandScript
