import CommandScript.Proofs.FileAppending
import CommandScript.Proofs.Provenance
import CommandScript.Proofs.RunOutcome
/-!
# What a run changes

Once its settings are loaded, a run is a reading of its arguments, a line for the record and a
report (`FileTree.runUnder`). What is said of a record takes no part in the report, even if it is
one of the scripts that are read; only a record that is a standard stream of the program shows its
line there (`Outcome.SameButRecord`). The tree keeps everything that it held and every path leads
where it led; only the file behind the path of the record, if the path leads to a file or to where
one can be made, has the line at its end or is made for it (`FileTree.Gains`). A null device can be
opened as well, but keeps nothing (`FileTree.run_not_isolated_devices`).
-/

set_option autoImplicit false
set_option relaxedAutoImplicit false

namespace CommandScript

namespace FileTree

/-- A tree after bytes were put at a location behind the content that a file had there, or in a new
file: every other place is as it was, and paths lead where they led. -/
structure Gains (tree after : FileTree) (location : Location) (content bytes : Bytes) : Prop where
  node?_self : after.node? location = some (.file (content ++ bytes))
  node?_of_ne : ∀ place, place ≠ location → after.node? place = tree.node? place
  reach?_eq : ∀ start path,
    after.reach? start path = (tree.reach? start path).map (Destination.made location)

section Opening

variable {tree : FileTree} {cwd location : Location} {path : String} {content : Bytes}

theorem stream?_of_leadsToFile (h : tree.LeadsToFile cwd path location content) :
    tree.stream? cwd path = none := by
  rw [stream?, nodeBehind?]
  cases h with
  | file leads holds => simp only [leads, holds]
  | vacant leads => simp only [leads]

theorem append_of_not_leadsToFile
    (h : ∀ location content, ¬ tree.LeadsToFile cwd path location content) (bytes : Bytes) :
    tree.append cwd path bytes = tree := by
  unfold append
  split
  · next location leads => exact absurd (LeadsToFile.vacant leads) (h location [])
  · next location leads =>
    split
    · next content holds => exact absurd (LeadsToFile.file leads holds) (h location content)
    · rfl
  · rfl

theorem gains_append (h : tree.LeadsToFile cwd path location content) (bytes : Bytes) :
    tree.Gains (tree.append cwd path bytes) location content bytes := by
  rw [append_of_leadsToFile h]
  exact ⟨node?_put_self _ _ _, fun _ hplace ↦ node?_put_of_ne _ _ hplace,
    fun start other ↦ reach?_put_file h.canHoldFile start other⟩

end Opening

end FileTree

/-! ### Runs from where the settings are loaded -/

/-- An outcome is the same as another, of a run behind the same report on settings, but for the
records of the two. If neither is a standard stream, the same is shown on it. If one record is, its
line is in front of what the other run shows there, on the standard error behind the report. -/
structure Outcome.SameButRecord (outcome other : Outcome)
    (record otherRecord : Option StandardStream) (report line : String) : Prop where
  exitCode : outcome.exitCode = other.exitCode
  stdout : record ≠ some .output → otherRecord ≠ some .output → outcome.stdout = other.stdout
  stderr : record ≠ some .error → otherRecord ≠ some .error → outcome.stderr = other.stderr
  stdout_of_record : record = some .output → otherRecord ≠ some .output →
    outcome.stdout = line ++ other.stdout
  stderr_of_record : record = some .error → otherRecord ≠ some .error →
    ∃ printed, other.stderr = report ++ printed ∧ outcome.stderr = report ++ (line ++ printed)

/-- Outcomes that agree are the same but for the record once lines for records are shown. -/
theorem Outcome.sameButRecord_showing {outcome other : Outcome}
    (hexit : outcome.exitCode = other.exitCode) (hstdout : outcome.stdout = other.stdout)
    (hstderr : outcome.stderr = other.stderr) (record otherRecord : Option StandardStream)
    (report line otherLine : String) :
    ((outcome.showing line record).behind report).SameButRecord
      ((other.showing otherLine otherRecord).behind report) record otherRecord report line where
  exitCode := by
    rw [behind, behind, exitCode_showing, exitCode_showing, hexit]
  stdout hrecord hother := by
    rw [behind, behind, stdout_showing, stdout_showing, if_neg hrecord, if_neg hother, hstdout]
  stderr hrecord hother := by
    rw [behind, behind, stderr_showing, stderr_showing, if_neg hrecord, if_neg hother, hstderr]
  stdout_of_record hrecord hother := by
    rw [behind, behind, stdout_showing, stdout_showing, if_pos hrecord, if_neg hother, hstdout]
  stderr_of_record hrecord hother := by
    refine ⟨other.stderr, ?_, ?_⟩
    · rw [behind, stderr_showing, if_neg hother]
    · rw [behind, stderr_showing, if_pos hrecord, hstderr]

/-- What a run prints itself depends on its names and its format, of all settings. -/
theorem Request.outcomeUnder_eq_of_audit {request later : Request} {config other : Config}
    (hargs : request.args = later.args) (hlibrary : request.library = later.library)
    (hnames : config.names = other.names) (hformat : config.format = other.format) :
    let outcome := request.outcomeUnder config
    let outcome' := later.outcomeUnder other
    outcome.exitCode = outcome'.exitCode ∧ outcome.stdout = outcome'.stdout ∧
      outcome.stderr = outcome'.stderr := by
  have houtput : config.outputFormat = other.outputFormat := by
    rw [Config.outputFormat, Config.outputFormat, hformat]
  unfold outcomeUnder
  rw [hargs, hlibrary, hnames, houtput]
  cases Arguments.parse later.library other.names later.args <;> exact ⟨rfl, rfl, rfl⟩

namespace FileTree

/-- From where the settings are loaded, runs at any two times under settings that agree on names and
format show the same, whatever they say of a record, but for the line of a record that is a standard
stream. Every run is such a run under the settings in force. If there is no record, or its path
leads to no file and to no place for one, the tree stays as it was; otherwise the file behind the
path is made if it is missing and gains the line of the run at its end, and nothing else changes. -/
theorem run_isolated (tree : FileTree) (cwd : Location) (environment : Environment)
    (explain : ConfigFile → String) (args : List Bytes) :
    let request := fun timestamp ↦ tree.request cwd environment explain timestamp args
    let line := fun timestamp names ↦ Audit.line timestamp (some cwd.path) (args.map Utf8.decode)
      (Arguments.parse (tree.library cwd) names (args.map Utf8.decode))
    (∀ (config other : Config) (report timestamp later : String), config.names = other.names →
      config.format = other.format →
        (tree.runUnder cwd (request timestamp) config report).1.SameButRecord
          (tree.runUnder cwd (request later) other report).1
          (tree.recordStream? cwd config) (tree.recordStream? cwd other) report
          (line timestamp config.names)) ∧
      (∀ timestamp, tree.run cwd environment explain timestamp args =
        tree.runUnder cwd (request timestamp) (request timestamp).effectiveConfig
          (request timestamp).configReport) ∧
      ∀ (config : Config) (report timestamp : String),
        let after := (tree.runUnder cwd (request timestamp) config report).2
        (config.audit.activePath? = none → after = tree) ∧
          ∀ path, config.audit.activePath? = some path →
            ((∀ location content, ¬ tree.LeadsToFile cwd path location content) → after = tree) ∧
              ∀ location content, tree.LeadsToFile cwd path location content →
                tree.Gains after location content
                  (Utf8.encode (line timestamp config.names)) := by
  intro request line
  refine ⟨fun config other report timestamp later hnames hformat ↦ ?_, fun _ ↦ rfl,
    fun config report timestamp ↦ ⟨fun hnone ↦ ?_, fun path hactive ↦ ?_⟩⟩
  · rw [runUnder_fst, runUnder_fst]
    obtain ⟨hexit, hstdout, hstderr⟩ := @Request.outcomeUnder_eq_of_audit (request timestamp)
      (request later) config other rfl rfl hnames hformat
    exact Outcome.sameButRecord_showing hexit hstdout hstderr _ _ _ _ _
  · rw [runUnder_of_activePath?_eq_none _ _ _ _ hnone]
  · rw [runUnder_of_activePath?_eq_some _ _ _ _ hactive]
    exact ⟨fun hclosed ↦ append_of_not_leadsToFile hclosed _,
      fun location content hleads ↦ gains_append hleads _⟩

/-- Settings that record runs under a path. -/
def recordAt (path : String) : Config := { audit := { enabled := true, path := some path } }

/-- A run whose record is the script that it reads shows what it shows without a record, and the
script has the line at its end. -/
theorem run_isolated_recorded_script :
    let tree := ofFiles [("boot.fab", imitation)]
    let request := tree.request [] {} (fun _ ↦ "") "T" [Utf8.encode "./boot.fab"]
    let recorded := tree.runUnder [] request (recordAt "/boot.fab") "Careful\n"
    recorded.1.exitCode = 0 ∧
      recorded.1.stdout = "<file> \"/boot.fab\"\nload \"<file>\" \"x\"\n" ∧
      recorded.1.stderr = "Careful\n" ∧
      recorded.2.node? ["boot.fab"] = some (.file (imitation ++ Utf8.encode (
        "\x7b\"timestamp\":\"T\",\"cwd\":\"/\",\"args\":\"./boot.fab\",\"commands\":2," ++
        "\"files\":[\"/boot.fab\"]\x7d\n"))) ∧
      recorded.2.node? [] = some .directory := by
  intro tree request recorded
  have hargs : [Utf8.encode "./boot.fab"].map Utf8.decode = ["./boot.fab"] := by
    rw [List.map_singleton, Utf8.decode_encode]
  have hread := @Arguments.readFrom_script (tree.library []) .strict [] "./boot.fab" (by decide) []
  rw [load_imitation] at hread
  have hparse : Arguments.parse (tree.library []) .strict
        ([Utf8.encode "./boot.fab"].map Utf8.decode) =
      .ok { commands :=
        [Command.fileMarker "/boot.fab", { name := "load", args := ["<file>", "x"] }] } := by
    rw [hargs]
    exact Arguments.parse_eq_ok_iff.mpr ⟨_, hread, rfl⟩
  have hplain : (tree.runUnder [] request {} "Careful\n").1.Reports
      (Arguments.parse (tree.library []) .strict ([Utf8.encode "./boot.fab"].map Utf8.decode))
      .text "" "Careful\n" := by
    rw [runUnder_of_activePath?_eq_none tree [] request "Careful\n" rfl]
    exact (request.outcomeUnder_reports {}).behind "Careful\n"
  obtain ⟨hshown, hreport⟩ := hplain.of_ok _ hparse
  have hleads : tree.LeadsToFile [] "/boot.fab" ["boot.fab"] imitation :=
    .file (@reach?_ofFiles [("boot.fab", imitation)] "/boot.fab" "boot.fab" imitation (by decide)
      (by decide) (by decide) (by decide) rfl) rfl
  have hstream : tree.recordStream? [] (recordAt "/boot.fab") = none :=
    stream?_of_leadsToFile hleads
  obtain ⟨hsame, -, hrecord⟩ := run_isolated tree [] {} (fun _ ↦ "") [Utf8.encode "./boot.fab"]
  have hshows := hsame (recordAt "/boot.fab") {} "Careful\n" "T" "T" rfl rfl
  have hgains := ((hrecord (recordAt "/boot.fab") "Careful\n" "T").2 "/boot.fab" rfl).2 _ _ hleads
  have hline : Audit.line "T" (some (Location.path []))
        ([Utf8.encode "./boot.fab"].map Utf8.decode)
        (Arguments.parse (tree.library []) .strict ([Utf8.encode "./boot.fab"].map Utf8.decode)) =
      "\x7b\"timestamp\":\"T\",\"cwd\":\"/\",\"args\":\"./boot.fab\",\"commands\":2," ++
        "\"files\":[\"/boot.fab\"]\x7d\n" := by
    rw [hparse, hargs]
    decide
  rw [hstream] at hshows
  refine ⟨hshows.exitCode.trans (hplain.exitCode_eq_zero_iff.mpr ⟨_, hparse⟩),
    (hshows.stdout (by decide) (by decide)).trans hshown,
    (hshows.stderr (by decide) (by decide)).trans hreport, ?_, hgains.node?_of_ne [] (by decide)⟩
  rw [← hline]
  exact hgains.node?_self

/-! ### Devices -/

/-- A path can be opened for appending: it leads to something that is no directory, or to where a
file can be made. -/
def IsAppendable (tree : FileTree) (cwd : Location) (path : String) : Prop :=
  match tree.reach? cwd path with
  | some (.existing location) => tree.node? location ≠ some .directory
  | some (.vacant _) => True
  | none => False

/-- The null device and the standard output of the program. -/
def devices : FileTree where
  node?
    | [] => some .directory
    | ["dev"] => some .directory
    | ["null", "dev"] => some .nullDevice
    | ["stdout", "dev"] => some (.stream .output)
    | _ => none

theorem reach?_devices {path name : String} {node : Node} (hshort : Path.isShort path = true)
    (husable : Path.isUsable path = true)
    (hpieces : Path.pieces path = [.here, .name "dev", .name name])
    (hsize : name.utf8ByteSize ≤ 255) (hnode : devices.node? [name, "dev"] = some node)
    (hlink : ∀ target, node ≠ .link target) :
    devices.reach? [] path = some (.existing [name, "dev"]) := by
  have hstart : Path.start path [] = [] := by
    rw [Path.start, Location.root, ite_self]
  have hname : ¬ Path.maxNameSize < name.utf8ByteSize := Nat.not_lt.mpr hsize
  have hopen : ¬ isBarred none ["dev"] name = true := by
    simp [isBarred, isWithin, hname]
  have hdev : devices.node? ["dev"] = some .directory := rfl
  have hdirectory : ∀ target, Node.directory ≠ .link target := fun _ h ↦ by cases h
  rw [reach?, if_pos hshort, follow?, if_pos husable, hpieces, hstart, walk_here rfl,
    walk_name_of_some rfl (by decide) hdirectory hdev, walk_name_of_some hdev hopen hlink hnode]
  simp [isWithin, walk]

/-- The null device can be opened for appending, but has no line at its end afterwards. A record on
the standard output shows there. -/
theorem run_not_isolated_devices :
    let request := devices.request [] {} (fun _ ↦ "") "T" [Utf8.encode "-go"]
    let result := fun config ↦ devices.runUnder [] request config ""
    let line := "\x7b\"timestamp\":\"T\",\"cwd\":\"/\",\"args\":\"-go\",\"commands\":1\x7d\n"
    devices.IsAppendable [] "/dev/null" ∧ devices.read? [] "/dev/null" = some [] ∧
      (result (recordAt "/dev/null")).2.read? [] "/dev/null" ≠ some ([] ++ Utf8.encode line) ∧
      (result {}).1.stdout = "go\n" ∧
      (result (recordAt "/dev/stdout")).1.stdout = line ++ "go\n" := by
  intro request result line
  have hnull : devices.reach? [] "/dev/null" = some (.existing ["null", "dev"]) :=
    reach?_devices (by decide) (by decide) (by decide) (by decide) rfl (fun _ h ↦ by cases h)
  have hstdout : devices.reach? [] "/dev/stdout" = some (.existing ["stdout", "dev"]) :=
    reach?_devices (by decide) (by decide) (by decide) (by decide) rfl (fun _ h ↦ by cases h)
  have hargs : [Utf8.encode "-go"].map Utf8.decode = ["-go"] := by
    rw [List.map_singleton, Utf8.decode_encode]
  have hparse : Arguments.parse (devices.library []) .strict ([Utf8.encode "-go"].map Utf8.decode) =
      .ok { commands := [{ name := "go", args := [] }] } := by
    rw [hargs]
    rfl
  have hline : request.recordLine .strict = line := by
    have hrecord : request.recordLine .strict = Audit.line "T" (some "/")
        ([Utf8.encode "-go"].map Utf8.decode)
        (Arguments.parse (devices.library []) .strict ([Utf8.encode "-go"].map Utf8.decode)) := rfl
    rw [hrecord, hparse, hargs]
    decide
  have hprinted : ∀ path, (request.outcomeUnder (recordAt path)).stdout = "go\n" := fun path ↦
    ((request.outcomeUnder_reports (recordAt path)).of_ok _ hparse).1
  have hread : devices.read? [] "/dev/null" = some [] := by
    rw [read?, hnull]
    rfl
  have hkept : (result (recordAt "/dev/null")).2 = devices := by
    have happend : ∀ bytes, devices.append [] "/dev/null" bytes = devices := fun bytes ↦ by
      rw [append, hnull]
      rfl
    exact happend _
  have hstream : devices.stream? [] "/dev/stdout" = some .output := by
    rw [stream?, nodeBehind?, hstdout]
    rfl
  refine ⟨?_, hread, ?_, ((request.outcomeUnder_reports {}).of_ok _ hparse).1, ?_⟩
  · rw [IsAppendable, hnull]
    decide
  · rw [hkept, hread]
    decide
  · have hshown : (result (recordAt "/dev/stdout")).1 =
        ((request.outcomeUnder (recordAt "/dev/stdout")).showing (request.recordLine .strict)
          (devices.stream? [] "/dev/stdout")).behind "" :=
      devices.runUnder_fst [] request (recordAt "/dev/stdout") ""
    rw [hshown, hstream, hline, Outcome.behind, Outcome.stdout_showing, if_pos rfl, hprinted]

end FileTree

end CommandScript
