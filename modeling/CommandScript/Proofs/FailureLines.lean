import CommandScript.Proofs.FirstFault
import CommandScript.Proofs.LineReading
import CommandScript.Proofs.RunOutcome
/-!
# Failures on a single line

A failure is reported in one sentence, and a run ends it with a line feed. All that a sentence holds
besides fixed text is the name of the script at fault, as it was given, so it is a single line
exactly if that name is (`Failure.isSingleLine_message_iff`). The script at fault is one of those
that the list names in front of its first dash, and each of them can be it
(`exists_parse_eq_error_unreadable`): a list is safe from broken reports exactly if none of these
names holds the end of a line. Nothing keeps such a name from being given.
-/

set_option autoImplicit false
set_option relaxedAutoImplicit false

namespace CommandScript

/-- The text holds no character that ends a line. -/
def IsSingleLine (text : String) : Prop := ∀ c ∈ text.toList, c ≠ '\r' ∧ c ≠ '\n'

instance (text : String) : Decidable (IsSingleLine text) :=
  decidable_of_iff ((text.toList.all fun c ↦ c != '\r' && c != '\n') = true) <| by
    simp [IsSingleLine]

theorem isSingleLine_append_iff {first second : String} :
    IsSingleLine (first ++ second) ↔ IsSingleLine first ∧ IsSingleLine second := by
  unfold IsSingleLine
  rw [String.toList_append, List.forall_mem_append]

/-! ### The sentence for a failure -/

theorem LineIssue.isSingleLine_message (issue : LineIssue) : IsSingleLine issue.message := by
  rcases issue with (- | -) | - <;> decide

theorem Failure.isSingleLine_message_iff (failure : Failure) :
    IsSingleLine failure.message ↔ ∀ name ∈ failure.script?, IsSingleLine name := by
  cases failure with
  | dashSuccession | invalidName => exact iff_of_true (by decide) nofun
  | unreadable name =>
    have hfixed : IsSingleLine "Error reading specified file: " := by decide
    change IsSingleLine ("Error reading specified file: " ++ name) ↔ _
    rw [isSingleLine_append_iff, and_iff_right hfixed]
    simp [script?]
  | badLine name issue =>
    have hfixed : IsSingleLine "Invalid syntax in file " ∧ IsSingleLine ": " := by decide
    change IsSingleLine ("Invalid syntax in file " ++ name ++ ": " ++ issue.message) ↔ _
    rw [isSingleLine_append_iff, isSingleLine_append_iff, isSingleLine_append_iff,
      and_iff_right hfixed.1, and_iff_left hfixed.2, and_iff_left issue.isSingleLine_message]
    simp [script?]

/-! ### The script at fault -/

/-- A library in which nothing is missing but one script, and all others are empty. -/
def ScriptLibrary.allBut (name : String) : ScriptLibrary := fun other ↦
  if other = name then none else some { path := "", content := [] }

theorem ScriptLibrary.load_allBut {policy : NamePolicy} {name other : String}
    (hother : other ≠ name) :
    (allBut name).load policy other = .ok { path := "", commands := [] } := by
  have hlines : Script.lines [] = [] := congrArg (List.map _) (LineStream.lines_nil .unset)
  have hcommands : Script.parse policy [] = .ok [] := by
    rw [Script.parse, hlines]
    rfl
  rw [load, allBut, if_neg hother]
  dsimp only
  rw [Script.parseAs, hcommands]
  rfl

namespace Arguments

section Scripts

variable {library : ScriptLibrary} {policy : NamePolicy} {args before after : List String}
  {arg name : String} {failure : Failure}

theorem Faults.eq_of_mem_script? (h : Faults library policy before arg failure)
    (hname : name ∈ failure.script?) :
    name = arg ∧ (∀ other ∈ before, startsWithDash other = false) ∧
      startsWithDash arg = false := by
  cases h with
  | dashSuccession | invalidName => cases hname
  | script hbefore harg hload =>
    rw [ScriptLibrary.script?_of_load_eq_error hload] at hname
    exact ⟨(Option.some.inj hname).symm, hbefore, harg⟩

theorem mem_scriptNames_append_cons (hbefore : ∀ other ∈ before, startsWithDash other = false)
    (harg : startsWithDash arg = false) : arg ∈ scriptNames (before ++ arg :: after) := by
  have hbare : ∀ other ∈ before, (!startsWithDash other) = true := by simpa using hbefore
  rw [scriptNames, List.takeWhile_append_of_pos hbare, List.takeWhile_cons, harg]
  exact List.mem_append_right _ List.mem_cons_self

/-- The script at fault is named in front of the first dash. -/
theorem mem_scriptNames_of_mem_script? (h : parse library policy args = .error failure)
    (hname : name ∈ failure.script?) : name ∈ scriptNames args := by
  obtain ⟨before, arg, after, rfl, -, hfault⟩ := parse_eq_error_iff.mp h
  obtain ⟨rfl, hbefore, harg⟩ := hfault.eq_of_mem_script? hname
  exact mem_scriptNames_append_cons hbefore harg

/-- A script is named for the first time behind other scripts only. -/
theorem exists_eq_append_cons_of_mem_scriptNames (h : name ∈ scriptNames args) :
    startsWithDash name = false ∧ ∃ before after, args = before ++ name :: after ∧
      ∀ other ∈ before, startsWithDash other = false ∧ other ≠ name := by
  obtain ⟨before, between, hsplit, hfirst⟩ := List.eq_append_cons_of_mem h
  have hbefore : ∀ other ∈ before, other ∈ scriptNames args := by
    rw [hsplit]
    exact fun other hother ↦ List.mem_append_left _ hother
  refine ⟨startsWithDash_of_mem_scriptNames name h, before,
    between ++ args.dropWhile fun arg ↦ !startsWithDash arg, ?_, fun other hother ↦
      ⟨startsWithDash_of_mem_scriptNames other (hbefore other hother),
        fun heq ↦ hfirst (heq ▸ hother)⟩⟩
  rw [← List.cons_append, ← List.append_assoc, ← hsplit]
  exact List.takeWhile_append_dropWhile.symm

theorem exists_parse_allBut_eq_ok
    (hbefore : ∀ other ∈ before, startsWithDash other = false ∧ other ≠ name) :
    ∃ stream, parse (.allBut name) policy before = .ok stream := by
  have hload : List.Forall₂
      (fun other script ↦ (ScriptLibrary.allBut name).load policy other = .ok script) before
      (before.map fun _ ↦ { path := "", commands := [] }) := by
    rw [List.forall₂_map_right_iff, List.forall₂_same]
    exact fun other hother ↦ ScriptLibrary.load_allBut (hbefore other hother).2
  have hbare := fun other hother ↦ (hbefore other hother).1
  have hread := (readFrom_scripts_eq_ok_iff hbare [] [] _).mpr ⟨_, hload, rfl⟩
  rw [List.append_nil] at hread
  exact ⟨_, parse_eq_ok_iff.mpr ⟨_, hread, rfl⟩⟩

/-- Each script that a list names can be the one that is missing. -/
theorem exists_parse_eq_error_unreadable (policy : NamePolicy) (h : name ∈ scriptNames args) :
    ∃ library, parse library policy args = .error (.unreadable name) := by
  obtain ⟨hname, before, after, rfl, hbefore⟩ := exists_eq_append_cons_of_mem_scriptNames h
  have hmissing : ScriptLibrary.allBut name name = none := if_pos rfl
  have hload : (ScriptLibrary.allBut name).load policy name = .error (.unreadable name) :=
    ScriptLibrary.load_eq_error_iff.mpr (.inl ⟨hmissing, rfl⟩)
  exact ⟨.allBut name, parse_eq_error_iff.mpr ⟨before, name, after, rfl,
    exists_parse_allBut_eq_ok hbefore, .script (fun other hother ↦ (hbefore other hother).1) hname
      hload⟩⟩

end Scripts

/-- A failure is reported on a single line exactly if the name of the script at fault holds no end
of a line. This is one of the names in front of the first dash, and the report is all that a run
with this failure prints behind the one on its settings. Whatever the library, no failure of a list
takes more than one line exactly if none of these names holds the end of a line. -/
theorem parse_failure_isSingleLine_iff (policy : NamePolicy) (args : List String) :
    (∀ library failure, parse library policy args = .error failure →
      (IsSingleLine failure.message ↔ ∀ name ∈ failure.script?, IsSingleLine name) ∧
        (∀ name ∈ failure.script?, name ∈ scriptNames args) ∧
          ∀ request : Request, request.library = library →
            request.effectiveConfig.names = policy → request.args = args →
              request.outcome.stderr = request.configReport ++ failure.message ++ "\n") ∧
      ((∀ library failure, parse library policy args = .error failure →
          IsSingleLine failure.message) ↔
        ∀ name ∈ scriptNames args, IsSingleLine name) := by
  refine ⟨fun library failure hparse ↦ ⟨failure.isSingleLine_message_iff,
    fun name hname ↦ mem_scriptNames_of_mem_script? hparse hname, ?_⟩, ?_, ?_⟩
  · rintro request rfl rfl rfl
    exact (request.outcome_reports.of_error failure hparse).2.2
  · intro hmessages name hname
    obtain ⟨library, hparse⟩ := exists_parse_eq_error_unreadable policy hname
    exact (Failure.isSingleLine_message_iff _).mp (hmessages library _ hparse) name rfl
  · intro hnames library failure hparse
    rw [failure.isSingleLine_message_iff]
    exact fun name hname ↦ hnames name (mem_scriptNames_of_mem_script? hparse hname)

/-- A script that is missing is reported on one line, and nothing else is. -/
theorem parse_failure_isSingleLine_boot :
    let request : Request :=
      { args := ["boot.fab", "-go"], directory := none, timestamp := "", userConfig := .absent,
        projectConfig := .absent, explain := fun _ ↦ "", library := fun _ ↦ none }
    IsSingleLine (Failure.unreadable "boot.fab").message ∧
      request.outcome.stderr = "Error reading specified file: boot.fab\n" := by
  intro request
  have hparse : parse (fun _ ↦ none) .strict ["boot.fab", "-go"] =
      .error (.unreadable "boot.fab") := rfl
  have hname : ∀ name ∈ (Failure.unreadable "boot.fab").script?, IsSingleLine name := by decide
  obtain ⟨hline, -, hreport⟩ :=
    (parse_failure_isSingleLine_iff .strict ["boot.fab", "-go"]).1 _ _ hparse
  exact ⟨hline.mpr hname, hreport request rfl rfl rfl⟩

/-- A name with a line feed in it stands in the report as it is, and breaks it in two. -/
theorem parse_failure_not_isSingleLine :
    let library := (FileTree.ofFiles []).library []
    parse library .strict ["no\nsuch"] = .error (.unreadable "no\nsuch") ∧
      (Failure.unreadable "no\nsuch").message = "Error reading specified file: no\nsuch" ∧
        ¬ IsSingleLine (Failure.unreadable "no\nsuch").message := by
  intro library
  have hmissing : library "no\nsuch" = none := by
    have hpieces : Path.pieces "no\nsuch" = [.name "no\nsuch"] := by decide
    have husable : Path.isUsable "no\nsuch" = true := by decide
    have hstart : Path.start "no\nsuch" [] = [] := by decide
    simp [library, FileTree.library, FileTree.resolve?, FileTree.follow?, husable, hpieces, hstart,
      FileTree.walk, FileTree.ofFiles]
  have hload : library.load .strict "no\nsuch" = .error (.unreadable "no\nsuch") :=
    ScriptLibrary.load_eq_error_iff.mpr (.inl ⟨hmissing, rfl⟩)
  have hfault : Faults library .strict [] "no\nsuch" (.unreadable "no\nsuch") :=
    .script (by simp) (by decide) hload
  exact ⟨parse_eq_error_iff.mpr ⟨[], "no\nsuch", [], rfl, ⟨{}, rfl⟩, hfault⟩, by decide, by decide⟩

end Arguments

end CommandScript
