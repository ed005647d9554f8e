import CommandScript.Proofs.ArgumentGrammar
import CommandScript.Proofs.ScriptText
/-!
# The two ways of giving commands

Commands can be given as an argument list, with a dash in front of each name, or as a script, with
a line for each command and quotes around its arguments. Both ways give the same commands
(`parse_and_parseAs_eq_ok`) if what both can express is all that is asked for: an argument that
starts with a dash would begin a command on an argument list, a script's reader drops the empty
argument, and a CR or an LF may end a line even between quotes.
-/

set_option autoImplicit false
set_option relaxedAutoImplicit false

namespace CommandScript

namespace Command

/-- The command under the name that it is kept by. -/
def canonical (command : Command) : Command :=
  { name := canonicalName command.name, args := command.args }

/-- The command's group on an argument list, with the dash in front of the name. -/
def group (command : Command) : Arguments.CommandGroup :=
  { apart := false, name := command.name, args := command.args }

/-- The command on an argument list. -/
def asArguments (command : Command) : List String := ("-" ++ command.name) :: command.args

/-- The command on a line of a script. -/
def asLine (command : Command) : List Char :=
  command.name.toList ++ command.args.flatMap fun arg ↦ ' ' :: Tokens.quote arg.toList

end Command

variable {policy : NamePolicy}

/-! ### Commands on an argument list -/

theorem Arguments.parse_asArguments {commands : List Command} (library : ScriptLibrary)
    (hnames : ∀ command ∈ commands, policy.accepts command.name = true)
    (hargs : ∀ command ∈ commands, ∀ arg ∈ command.args, startsWithDash arg = false) :
    parse library policy (commands.flatMap Command.asArguments) =
      .ok { commands := commands.map Command.canonical, fromStdin := false } := by
  have hgroups : ∀ group ∈ commands.map Command.group, group.IsValid policy := by
    intro group hgroup
    obtain ⟨command, hcommand, rfl⟩ := List.mem_map.mp hgroup
    exact ⟨hnames command hcommand, hargs command hcommand⟩
  have hspelling : (commands.map Command.group).flatMap CommandGroup.spelling =
      commands.flatMap Command.asArguments := by
    rw [List.flatMap_map]
    rfl
  obtain ⟨later, hlater, hread⟩ := @readFrom_groups library policy _ hgroups {} []
  rw [List.append_nil, hspelling] at hread
  refine parse_eq_ok_iff.mpr ⟨{ draft := later }, hread, ?_⟩
  rw [State.result, hlater, List.map_map]
  rfl

/-! ### Commands in a script -/

theorem Tokens.mem_flatMap_escape {text : List Char} {c : Char} (hc : c ≠ '\\')
    (h : c ∈ text.flatMap escape) : c ∈ text := by
  obtain ⟨d, hd, hcd⟩ := List.mem_flatMap.mp h
  obtain rfl := (eq_or_eq_of_mem_escape hcd).resolve_left hc
  exact hd

theorem parse_asLine {commands : List Command}
    (hnames : ∀ command ∈ commands, policy.accepts command.name = true)
    (hargs : ∀ command ∈ commands, ∀ arg ∈ command.args,
      arg ≠ "" ∧ '\r' ∉ arg.toList ∧ '\n' ∉ arg.toList) :
    Script.parse policy (Utf8.encode (unlines (commands.map Command.asLine))) =
      .ok (commands.map Command.canonical) := by
  have hread : ∀ command ∈ commands, commandRead String.toList command = command.canonical := by
    intro command hcommand
    have hkept : ∀ text ∈ command.args.map String.toList, (!text.isEmpty) = true := by
      intro text htext
      obtain ⟨arg, harg, rfl⟩ := List.mem_map.mp htext
      simpa using (hargs command hcommand arg harg).1
    rw [commandRead, List.filter_eq_self.mpr hkept, List.map_map, Command.canonical]
    simp [Function.comp_def]
  have hspells : ∀ command ∈ commands, ∀ arg ∈ command.args,
      Tokens.Spells (arg.toList.flatMap Tokens.escape) arg.toList :=
    fun _ _ arg _ ↦ Tokens.spells_flatMap_escape arg.toList
  rw [← List.map_congr_left hread]
  refine parse_commandText hnames hspells fun command hcommand arg harg ↦ ?_
  obtain ⟨-, hcr, hlf⟩ := hargs command hcommand arg harg
  exact ⟨fun hmem ↦ hcr (Tokens.mem_flatMap_escape (by decide) hmem),
    fun hmem ↦ hlf (Tokens.mem_flatMap_escape (by decide) hmem)⟩

/-! ### Agreement -/

/-- Commands with valid names, in any letter case, and with arguments that are not empty, do not
start with a dash and hold no CR and no LF are the same as an argument list and as a script. -/
theorem parse_and_parseAs_eq_ok (commands : List Command)
    (hnames : ∀ command ∈ commands, policy.accepts command.name = true)
    (hargs : ∀ command ∈ commands, ∀ arg ∈ command.args,
      arg ≠ "" ∧ startsWithDash arg = false ∧ '\r' ∉ arg.toList ∧ '\n' ∉ arg.toList)
    (library : ScriptLibrary) (source : String) :
    Arguments.parse library policy (commands.flatMap Command.asArguments) =
        .ok { commands := commands.map Command.canonical, fromStdin := false } ∧
      Script.parseAs policy source (Utf8.encode (unlines (commands.map Command.asLine))) =
        .ok (commands.map Command.canonical) := by
  constructor
  · exact Arguments.parse_asArguments library hnames fun command hcommand arg harg ↦
      (hargs command hcommand arg harg).2.1
  · refine Script.parseAs_eq_ok_iff.mpr (parse_asLine hnames fun command hcommand arg harg ↦ ?_)
    obtain ⟨hne, -, hlines⟩ := hargs command hcommand arg harg
    exact ⟨hne, hlines⟩

/-- A name in capitals, blanks at either end, a dash further on, quotes, a backslash and U+FEFF. -/
theorem parse_and_parseAs_say :
    Arguments.parse (fun _ ↦ none) .strict ["-SAY", " a-b ", "\"\\", "\uFEFF"] =
        .ok
          { commands := [{ name := "say", args := [" a-b ", "\"\\", "\uFEFF"] }]
            fromStdin := false } ∧
      Script.parseAs .strict "a.fab"
          (Utf8.encode "SAY \" a-b \" \"\\\"\\\\\" \"\uFEFF\"\n") =
        .ok [{ name := "say", args := [" a-b ", "\"\\", "\uFEFF"] }] :=
  parse_and_parseAs_eq_ok [{ name := "SAY", args := [" a-b ", "\"\\", "\uFEFF"] }] (by decide)
    (by decide) (fun _ ↦ none) "a.fab"

end CommandScript
