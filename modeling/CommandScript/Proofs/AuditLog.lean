import CommandScript.Proofs.FileAppending
import CommandScript.Proofs.JsonReading
import CommandScript.Proofs.RunOutcome
import CommandScript.Proofs.Truncation
/-!
# The record of runs

Each run adds one line to the record, behind what is there already. The line is the text of a JSON
object whose members tell the run (`Audit.Tells`): those that would have nothing to say are missing,
and there are no others. No text that goes into it breaks the line (`LoggedRun.exists_line_eq`), so
the record of any number of runs holds one line for each, from which the run is read back
(`FileTree.logAll_adds_lines`).
-/

set_option autoImplicit false
set_option relaxedAutoImplicit false

namespace CommandScript

/-- What the record keeps of a run. -/
structure LoggedRun where
  timestamp : String
  directory : Option String
  args : List String
  result : Except Failure CommandStream

/-- The line of a run, with its end. -/
def LoggedRun.line (run : LoggedRun) : String :=
  Audit.line run.timestamp run.directory run.args run.result

namespace Audit

/-- The arguments of a run summed up: joined by spaces, or if that takes more than 200 bytes, the
longest beginning of it that leaves room for an ellipsis. -/
structure IsSummary (args : List String) (text : String) : Prop where
  of_le : (" ".intercalate args).utf8ByteSize ≤ 200 → text = " ".intercalate args
  of_lt : 200 < (" ".intercalate args).utf8ByteSize →
    ∃ kept, IsLongestFitting 197 (" ".intercalate args) kept ∧ text = kept ++ "..."

theorem isSummary_summary (args : List String) : IsSummary args (summary args) where
  of_le := truncate_of_le
  of_lt hlong := ⟨_, isLongestFitting_fitting 197 _, truncate_of_lt hlong⟩

/-- The paths that the markers among some commands carry, in order. -/
def markedPaths (commands : List Command) : List String :=
  (commands.filter fun command ↦ command.name == "<file>").filterMap fun command ↦
    command.args.head?

theorem files_eq_markedPaths (stream : CommandStream) :
    stream.files = markedPaths stream.commands :=
  List.filterMap_filter.symm

/-- Members that tell a run: each at most once and always in the same order, and missing exactly if
there is nothing to say. -/
structure Tells (members : List (String × Json)) (run : LoggedRun) : Prop where
  keys_sublist : (members.map Prod.fst).Sublist
    ["timestamp", "cwd", "args", "commands", "files", "from_stdin", "error"]
  timestamp : members.lookup "timestamp" = some (.string run.timestamp)
  cwd : members.lookup "cwd" = run.directory.map .string
  args : ∃ text, members.lookup "args" = some (.string text) ∧ IsSummary run.args text
  of_ok : ∀ stream, run.result = .ok stream →
    members.lookup "commands" = some (.number stream.commands.length) ∧
      members.lookup "files" =
        (if markedPaths stream.commands = [] then none
          else some (.array ((markedPaths stream.commands).map .string))) ∧
      members.lookup "from_stdin" = (if stream.fromStdin then some (.boolean true) else none) ∧
      members.lookup "error" = none
  of_error : ∀ failure, run.result = .error failure →
    members.lookup "commands" = some (.number 0) ∧ members.lookup "files" = none ∧
      members.lookup "from_stdin" = none ∧
      members.lookup "error" = some (.string failure.message)

/-- The members of a run's line. -/
def members (run : LoggedRun) : List (String × Json) :=
  [("timestamp", .string run.timestamp)] ++
    (run.directory.toList.map fun path ↦ ("cwd", .string path)) ++
    [("args", .string (summary run.args))] ++ outcomeMembers run.result

theorem keys_outcomeMembers_sublist (result : Except Failure CommandStream) :
    ((outcomeMembers result).map Prod.fst).Sublist
      ["commands", "files", "from_stdin", "error"] := by
  cases result with
  | error failure =>
    have hkeys : ["commands", "error"].Sublist ["commands", "files", "from_stdin", "error"] := by
      decide
    exact hkeys
  | ok stream =>
    cases hfiles : stream.files.isEmpty <;> cases hstdin : stream.fromStdin <;>
      simp [outcomeMembers, hfiles, hstdin]

theorem keys_members_sublist (run : LoggedRun) : ((members run).map Prod.fst).Sublist
    ["timestamp", "cwd", "args", "commands", "files", "from_stdin", "error"] := by
  have hcwd : ((run.directory.toList.map fun path ↦ ("cwd", Json.string path)).map
      Prod.fst).Sublist ["cwd"] := by
    cases run.directory <;> simp
  have hkeys := (((List.Sublist.refl ["timestamp"]).append hcwd).append
    (List.Sublist.refl ["args"])).append (keys_outcomeMembers_sublist run.result)
  simpa [members] using hkeys

/-- What a line says of what came of the run, it says under keys of its own. -/
theorem lookup_members {run : LoggedRun} {key : String} (htimestamp : key ≠ "timestamp")
    (hcwd : key ≠ "cwd") (hargs : key ≠ "args") :
    (members run).lookup key = (outcomeMembers run.result).lookup key := by
  cases hdirectory : run.directory <;>
    simp [members, hdirectory, List.lookup_cons, beq_eq_false_iff_ne.mpr htimestamp,
      beq_eq_false_iff_ne.mpr hcwd, beq_eq_false_iff_ne.mpr hargs]

theorem lookup_cwd_members (run : LoggedRun) :
    (members run).lookup "cwd" = run.directory.map .string := by
  have hnone : (outcomeMembers run.result).lookup "cwd" = none := by
    refine List.lookup_eq_none_iff.mpr fun member hmember ↦ ?_
    have hkey := (keys_outcomeMembers_sublist run.result).subset (List.mem_map_of_mem hmember)
    have hne : ∀ key ∈ ["commands", "files", "from_stdin", "error"], ("cwd" != key) = true := by
      decide
    exact hne member.1 hkey
  cases hdirectory : run.directory <;> simp [members, hdirectory, List.lookup_cons, hnone]

theorem lookup_args_members (run : LoggedRun) :
    (members run).lookup "args" = some (.string (summary run.args)) := by
  cases hdirectory : run.directory <;> simp [members, hdirectory, List.lookup_cons]

theorem lookup_outcomeMembers_ok (stream : CommandStream) :
    (outcomeMembers (.ok stream)).lookup "commands" = some (.number stream.commands.length) ∧
      (outcomeMembers (.ok stream)).lookup "files" =
        (if markedPaths stream.commands = [] then none
          else some (.array ((markedPaths stream.commands).map .string))) ∧
      (outcomeMembers (.ok stream)).lookup "from_stdin" =
        (if stream.fromStdin then some (.boolean true) else none) ∧
      (outcomeMembers (.ok stream)).lookup "error" = none := by
  rw [← files_eq_markedPaths]
  cases hfiles : stream.files <;> cases hstdin : stream.fromStdin <;>
    simp [outcomeMembers, hfiles, hstdin, List.lookup_cons]

theorem members_tells (run : LoggedRun) : Tells (members run) run where
  keys_sublist := keys_members_sublist run
  timestamp := rfl
  cwd := lookup_cwd_members run
  args := ⟨summary run.args, lookup_args_members run, isSummary_summary run.args⟩
  of_ok := by
    intro stream hresult
    have hlookup := lookup_outcomeMembers_ok stream
    rw [← hresult] at hlookup
    rwa [lookup_members (by decide) (by decide) (by decide),
      lookup_members (by decide) (by decide) (by decide),
      lookup_members (by decide) (by decide) (by decide),
      lookup_members (by decide) (by decide) (by decide)]
  of_error := by
    intro failure hresult
    rw [lookup_members (by decide) (by decide) (by decide),
      lookup_members (by decide) (by decide) (by decide),
      lookup_members (by decide) (by decide) (by decide),
      lookup_members (by decide) (by decide) (by decide), hresult]
    exact ⟨rfl, rfl, rfl, rfl⟩

end Audit

/-! ### Lines -/

/-- No text that goes into a line breaks it, and the run is read back from it. -/
theorem LoggedRun.exists_line_eq (run : LoggedRun) : ∃ text members, run.line = text ++ "\n" ∧
    (∀ c ∈ text.toList, 0x20 ≤ c.toNat) ∧ Json.decode? text = some (.object members) ∧
      Audit.Tells members run := by
  refine ⟨(Json.object (Audit.members run)).render, Audit.members run, rfl, fun c hc ↦ ?_,
    Json.decode?_render _, Audit.members_tells run⟩
  rw [Json.render, String.toList_ofList] at hc
  exact Json.le_toNat_of_mem_renderChars hc

/-! ### The file -/

namespace FileTree

/-- The tree that a run leaves whose line goes to a path. -/
def log (tree : FileTree) (cwd : Location) (path : String) (run : LoggedRun) : FileTree :=
  tree.append cwd path (Utf8.encode run.line)

/-- The tree that some runs leave, one after the other. The path is followed anew for each. -/
def logAll (tree : FileTree) (cwd : Location) (path : String) (runs : List LoggedRun) : FileTree :=
  runs.foldl (fun tree run ↦ tree.log cwd path run) tree

variable {tree : FileTree} {cwd : Location} {path : String} {content : Bytes}

/-- What a run of the program leaves that has a record to add to. -/
theorem run_snd_eq_log {environment : Environment} {explain : ConfigFile → String}
    {timestamp : String} {args : List Bytes} {config : Config}
    (hconfig : (tree.request cwd environment explain timestamp args).effectiveConfig = config)
    (hactive : config.audit.activePath? = some path) :
    (tree.run cwd environment explain timestamp args).2 = tree.log cwd path
      { timestamp, directory := some cwd.path, args := args.map Utf8.decode
        result := Arguments.parse (tree.library cwd) config.names (args.map Utf8.decode) } := by
  rw [run, hconfig, runUnder_of_activePath?_eq_some _ _ _ _ hactive]
  rfl

theorem openLog?_logAll (hopen : tree.openLog? cwd path = some content) (runs : List LoggedRun) :
    (tree.logAll cwd path runs).openLog? cwd path =
      some (content ++ runs.flatMap fun run ↦ Utf8.encode run.line) := by
  induction runs generalizing tree content with
  | nil => simpa [logAll] using hopen
  | cons run runs ih =>
    rw [logAll, List.foldl_cons, List.flatMap_cons, ← List.append_assoc]
    exact ih (openLog?_append hopen _)

theorem read?_logAll (hopen : tree.openLog? cwd path = some content) {runs : List LoggedRun}
    (hruns : runs ≠ []) : (tree.logAll cwd path runs).read? cwd path =
      some (content ++ runs.flatMap fun run ↦ Utf8.encode run.line) := by
  obtain ⟨before, last, rfl⟩ : ∃ before last, runs = before ++ [last] :=
    ⟨_, _, (List.dropLast_append_getLast hruns).symm⟩
  have hread := read?_append (openLog?_logAll hopen before) (Utf8.encode last.line)
  rw [logAll, List.foldl_append, List.flatMap_append, ← List.append_assoc]
  simpa [logAll, log] using hread

/-- Where there is a file that can be added to, or can be made, the runs that are logged there add a
line each, in their order, behind what was there before. Each of the lines ends with its only line
feed, holds no other character below U+0020, and is a JSON object that tells its run. -/
theorem logAll_adds_lines (hopen : tree.openLog? cwd path = some content)
    (runs : List LoggedRun) :
    let added := runs.flatMap fun run ↦ Utf8.encode run.line
    let after := tree.logAll cwd path runs
    after.openLog? cwd path = some (content ++ added) ∧
      (runs ≠ [] → after.read? cwd path = some (content ++ added)) ∧
      ∀ run ∈ runs, ∃ text members, run.line = text ++ "\n" ∧
        (∀ c ∈ text.toList, 0x20 ≤ c.toNat) ∧ Json.decode? text = some (.object members) ∧
          Audit.Tells members run :=
  ⟨openLog?_logAll hopen runs, read?_logAll hopen, fun run _ ↦ run.exists_line_eq⟩

/-- Two runs: the first has read a script, the second could not read one that has a line feed in its
name. -/
def loggedPair : List LoggedRun :=
  [{ timestamp := "T", directory := some "/", args := ["boot.fab", "-Go", "-"]
     result := .ok
      { commands := [{ name := "<file>", args := ["/boot.fab"] }, { name := "go", args := [] }]
        fromStdin := true } },
    { timestamp := "U", directory := none, args := ["a\n"], result := .error (.unreadable "a\n") }]

theorem logAll_adds_lines_pair :
    ((ofFiles [("runs.log", Utf8.encode "old\n")]).logAll [] "/runs.log" loggedPair).read? []
          "/runs.log" =
        some (Utf8.encode ("old\n" ++
          "\x7b\"timestamp\":\"T\",\"cwd\":\"/\",\"args\":\"boot.fab -Go -\"," ++
          "\"commands\":2,\"files\":[\"/boot.fab\"],\"from_stdin\":true\x7d\n" ++
          "\x7b\"timestamp\":\"U\",\"args\":\"a\\n\",\"commands\":0,\"error\":\"" ++
          "Error reading specified file: a\\n\"\x7d\n")) ∧
      ∀ run ∈ loggedPair, ∃ text members, run.line = text ++ "\n" ∧
        Json.decode? text = some (.object members) ∧ Audit.Tells members run := by
  have hreach : (ofFiles [("runs.log", Utf8.encode "old\n")]).reach? [] "/runs.log" =
      some (.existing ["runs.log"]) :=
    @reach?_ofFiles [("runs.log", Utf8.encode "old\n")] "/runs.log" "runs.log" _ (by decide)
      (by decide) (by decide) (by decide) rfl
  have hopen : (ofFiles [("runs.log", Utf8.encode "old\n")]).openLog? [] "/runs.log" =
      some (Utf8.encode "old\n") := by
    rw [openLog?, hreach]
    rfl
  obtain ⟨-, hread, htell⟩ := logAll_adds_lines hopen loggedPair
  have hlines : (loggedPair.flatMap fun run ↦ Utf8.encode run.line) = Utf8.encode (
        "\x7b\"timestamp\":\"T\",\"cwd\":\"/\",\"args\":\"boot.fab -Go -\"," ++
        "\"commands\":2,\"files\":[\"/boot.fab\"],\"from_stdin\":true\x7d\n" ++
        "\x7b\"timestamp\":\"U\",\"args\":\"a\\n\",\"commands\":0,\"error\":\"" ++
        "Error reading specified file: a\\n\"\x7d\n") := by
    rw [loggedPair, List.flatMap_cons, List.flatMap_singleton, ← Utf8.encode_append]
    refine congrArg Utf8.encode ?_
    decide +kernel
  refine ⟨?_, fun run hrun ↦ ?_⟩
  · rw [hread (by decide), hlines, ← Utf8.encode_append]
    rfl
  · obtain ⟨text, members, hline, -, hdecode, htells⟩ := htell run hrun
    exact ⟨text, members, hline, hdecode, htells⟩

end FileTree

end CommandScript
