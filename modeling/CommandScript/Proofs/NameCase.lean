import CommandScript.Proofs.DashedLists
import CommandScript.Proofs.FailureLines
import CommandScript.Proofs.NameFolding
import CommandScript.Proofs.Provenance
/-!
# Names in other letters

A command is kept under its folded name, and folding tells two texts apart unless they are the same
but for the case of ASCII letters (`canonicalName_eq_iff`). What is accepted as a name does not hang
on the case either. So a list of arguments may be respelled wherever an argument gives a name: each
step does the same (`step_eq_of_respells`), and so does the whole reading
(`parse_eq_of_respellsAll`). A script may be respelled in the first token of each line
(`commandsOfLines_eq_of_linesAlike`). Nothing else may: arguments stand in the commands that they
belong to as they were given, and scripts are looked up and cited by the names that were given
(`Arguments.FoldsNamesOnly`, `Script.FoldsNamesOnly`).
-/

set_option autoImplicit false
set_option relaxedAutoImplicit false

namespace CommandScript

/-! ### Texts that differ in the case of letters -/

/-- A capital letter of ASCII, and the small one. -/
def IsCapitalOf (capital small : Char) : Prop :=
  'A' ≤ capital ∧ capital ≤ 'Z' ∧ small.toNat = capital.toNat + 32

/-- The same character, or the same letter of ASCII in the other case. -/
def SameLetter (first second : Char) : Prop :=
  first = second ∨ IsCapitalOf first second ∨ IsCapitalOf second first

/-- The same text but for the case of its ASCII letters. -/
def SameButCase (first second : String) : Prop :=
  List.Forall₂ SameLetter first.toList second.toList

theorem isCapitalOf_iff {capital small : Char} : IsCapitalOf capital small ↔
    0x41 ≤ capital.toNat ∧ capital.toNat ≤ 0x5A ∧ small.toNat = capital.toNat + 32 :=
  Iff.rfl

theorem toLower_eq_toLower_iff {first second : Char} :
    first.toLower = second.toLower ↔ SameLetter first second := by
  rw [← Char.toNat_inj, toNat_toLower, toNat_toLower, SameLetter, isCapitalOf_iff, isCapitalOf_iff,
    ← Char.toNat_inj]
  split_ifs <;> omega

/-- Folding tells texts apart unless they are the same but for the case of ASCII letters. -/
theorem canonicalName_eq_iff {first second : String} :
    canonicalName first = canonicalName second ↔ SameButCase first second := by
  have hletters : (fun c d : Char ↦ c.toLower = d.toLower) = SameLetter :=
    funext₂ fun _ _ ↦ propext toLower_eq_toLower_iff
  rw [canonicalName, canonicalName, String.ofList_inj, ← List.forall₂_eq_eq_eq,
    List.forall₂_map_left_iff, List.forall₂_map_right_iff, hletters, SameButCase]

instance (first second : String) : Decidable (SameButCase first second) :=
  decidable_of_iff _ canonicalName_eq_iff

/-- No letter is folded to a dash. -/
theorem toLower_eq_dash_iff {c : Char} : c.toLower = '-' ↔ c = '-' := by
  have hdash : '-'.toNat = 0x2D := rfl
  rw [← Char.toNat_inj, ← Char.toNat_inj, toNat_toLower, hdash]
  split_ifs <;> omega

theorem SameLetter.eq_dash_iff {first second : Char} (h : SameLetter first second) :
    first = '-' ↔ second = '-' := by
  rw [← toLower_eq_dash_iff, toLower_eq_toLower_iff.mpr h, toLower_eq_dash_iff]

namespace SameButCase

variable {first second : String}

theorem accepts_eq (h : SameButCase first second) (policy : NamePolicy) :
    policy.accepts first = policy.accepts second := by
  rw [← policy.accepts_canonicalName first, canonicalName_eq_iff.mpr h,
    policy.accepts_canonicalName]

theorem startsWithDash_eq (h : SameButCase first second) :
    startsWithDash first = startsWithDash second := by
  unfold SameButCase at h
  unfold startsWithDash
  generalize first.toList = letters at h ⊢
  generalize second.toList = others at h ⊢
  cases h with
  | nil => rfl
  | cons hletter _ =>
    rw [Bool.eq_iff_iff]
    simp [hletter.eq_dash_iff]

/-- Behind a dash the texts still are the same but for the case. -/
theorem of_dash_append {name : String} (h : SameButCase ("-" ++ name) second) :
    ∃ other, second = "-" ++ other ∧ SameButCase name other := by
  have hlone : "-".toList = ['-'] := rfl
  rw [SameButCase, String.toList_append, hlone] at h
  obtain ⟨c, rest, hdash, hrest, hsecond⟩ := List.forall₂_cons_left_iff.mp h
  obtain rfl := hdash.eq_dash_iff.mp rfl
  refine ⟨String.ofList rest, String.toList_injective ?_, ?_⟩
  · simp [hsecond]
  · rwa [SameButCase, String.toList_ofList]

end SameButCase

namespace Arguments

/-! ### Argument lists -/

/-- One argument in the place of another, behind those before it: the same one or, where it gives a
name, the same but for the case of ASCII letters. -/
def Respells (before : List String) (arg other : String) : Prop :=
  arg = other ∨ (∃ name, GivesName before arg name) ∧ SameButCase arg other

/-- A list in the place of another, argument by argument, behind some arguments that were read. -/
inductive RespellsAll : List String → List String → List String → Prop
  | nil (before : List String) : RespellsAll before [] []
  | cons {before args others : List String} {arg other : String} (harg : Respells before arg other)
    (hargs : RespellsAll (before ++ [arg]) args others) :
    RespellsAll before (arg :: args) (other :: others)

section Reading

variable {library : ScriptLibrary} {policy : NamePolicy} {state : State}
  {before args others : List String} {arg other : String}

theorem State.begin_eq_of_sameButCase {name : String} (h : SameButCase name other) :
    state.begin policy name = state.begin policy other := by
  rw [State.begin, State.begin, h.accepts_eq, canonicalName_eq_iff.mpr h]

theorem step_eq_of_respells (h : state.Follows before) (harg : Respells before arg other) :
    state.step library policy (Argument.ofString arg) =
      state.step library policy (Argument.ofString other) := by
  rcases harg with rfl | ⟨⟨name, hname⟩, hcase⟩
  · rfl
  · rcases hname with ⟨hlast, -⟩ | ⟨hne, rfl⟩
    · have hawaits := h.awaitsName_iff.mpr hlast
      rw [step_of_awaitsName hawaits, step_of_awaitsName hawaits, hcase.startsWithDash_eq,
        State.begin_eq_of_sameButCase hcase]
    · obtain ⟨other, rfl, hname⟩ := hcase.of_dash_append
      have hotherNe : other ≠ "" := by
        rintro rfl
        exact hne (String.toList_eq_nil_iff.mp (List.forall₂_nil_right_iff.mp hname))
      rw [Argument.ofString_dashed hne, Argument.ofString_dashed hotherNe, State.step, State.step,
        hname.startsWithDash_eq, State.begin_eq_of_sameButCase hname]

theorem readFrom_eq_of_respellsAll (h : state.Follows before)
    (hargs : RespellsAll before args others) :
    readFrom library policy state args = readFrom library policy state others := by
  induction hargs generalizing state with
  | nil => rfl
  | cons harg _ ih =>
    rw [readFrom_cons, readFrom_cons, ← step_eq_of_respells h harg]
    cases hstep : state.step library policy (Argument.ofString _) with
    | error failure => rfl
    | ok next => exact ih (h.step hstep)

theorem parse_eq_of_respellsAll (hargs : RespellsAll [] args others) :
    parse library policy args = parse library policy others := by
  rw [parse, parse, readFrom_eq_of_respellsAll State.follows_nil hargs]

end Reading

/-- The same command is spelled under the same name but for the case, with the same arguments. -/
theorem CommandGroup.command_eq_iff {group other : CommandGroup} :
    group.command = other.command ↔
      SameButCase group.name other.name ∧ group.args = other.args := by
  rw [command, command, Command.mk.injEq, canonicalName_eq_iff]

/-- What holds of every argument list: names may be respelled, and nothing else may. The names of
scripts are looked up and cited as they are given, and so are arguments handed on to the commands
that they belong to. -/
structure FoldsNamesOnly (library : ScriptLibrary) (policy : NamePolicy) : Prop where
  respelled : ∀ args others, RespellsAll [] args others →
    parse library policy args = parse library policy others
  composed : ∀ args stream, parse library policy args = .ok stream →
    ∃ scripts groups, IsComposedOf library policy args stream scripts groups
  cited : ∀ args failure, parse library policy args = .error failure →
    ∀ name ∈ failure.script?, name ∈ scriptNames args
  command_iff : ∀ group other : CommandGroup, group.command = other.command ↔
    SameButCase group.name other.name ∧ group.args = other.args

theorem foldsNamesOnly (library : ScriptLibrary) (policy : NamePolicy) :
    FoldsNamesOnly library policy where
  respelled _ _ := parse_eq_of_respellsAll
  composed _ _ := exists_isComposedOf_of_parse
  cited _ _ h _ := mem_scriptNames_of_mem_script? h
  command_iff _ _ := CommandGroup.command_eq_iff

end Arguments

/-! ### Scripts -/

namespace Script

/-- What two lines come to is alike: the same failure, or the same tokens but for the case of the
first. -/
inductive TokensAlike : Except Unterminated (List (List Char)) →
    Except Unterminated (List (List Char)) → Prop
  | failure (what : Unterminated) : TokensAlike (.error what) (.error what)
  | silent : TokensAlike (.ok []) (.ok [])
  | command {name other : List Char} (hname : List.Forall₂ SameLetter name other)
    (args : List (List Char)) : TokensAlike (.ok (name :: args)) (.ok (other :: args))

/-- Two lines that have the same tokens but for the case of the first. White space at the two ends
of a line is no part of it. -/
def LinesAlike (first second : String) : Prop :=
  TokensAlike (tokenize (trim first.toList)) (tokenize (trim second.toList))

section Lines

variable {policy : NamePolicy} {lines others : List String}

theorem commandOfLine_eq_of_linesAlike {first second : String} (h : LinesAlike first second) :
    commandOfLine policy first = commandOfLine policy second := by
  unfold LinesAlike at h
  unfold commandOfLine
  generalize tokenize (trim first.toList) = tokens at h ⊢
  generalize tokenize (trim second.toList) = others at h ⊢
  cases h with
  | failure | silent => rfl
  | @command name other hname args =>
    have hcase : SameButCase (String.ofList name) (String.ofList other) := by
      rwa [SameButCase, String.toList_ofList, String.toList_ofList]
    simp only [List.map_cons, commandOfTokens, hcase.accepts_eq, canonicalName_eq_iff.mpr hcase]

theorem commandsOfLines_eq_of_linesAlike (h : List.Forall₂ LinesAlike lines others) :
    commandsOfLines policy lines = commandsOfLines policy others := by
  induction h with
  | nil => rfl
  | cons hline _ ih =>
    rw [commandsOfLines, commandsOfLines, commandOfLine_eq_of_linesAlike hline, ih]

/-- The same command is spelled by the same tokens but for the case of the first. -/
theorem spelled?_eq_iff {tokens others : List (List Char)} :
    spelled? tokens = spelled? others ↔ TokensAlike (.ok tokens) (.ok others) := by
  rcases tokens with - | ⟨name, args⟩
  · rcases others with - | ⟨other, others⟩
    · exact iff_of_true rfl .silent
    · exact iff_of_false nofun nofun
  · rcases others with - | ⟨other, others⟩
    · exact iff_of_false nofun nofun
    · have hargs : args.map String.ofList = others.map String.ofList ↔ args = others :=
        (List.map_injective_iff.mpr fun _ _ ↦ String.ofList_inj.mp).eq_iff
      rw [spelled?, spelled?, Option.some_inj, Command.mk.injEq, canonicalName_eq_iff, hargs,
        SameButCase, String.toList_ofList, String.toList_ofList]
      constructor
      · rintro ⟨hname, rfl⟩
        exact .command hname args
      · intro h
        cases h with
        | command hname => exact ⟨hname, rfl⟩

end Lines

/-- What holds of every script: names may be respelled, and nothing else may. A script that is read
has the commands that its tokens spell, whose arguments stand there as they are. -/
structure FoldsNamesOnly (policy : NamePolicy) : Prop where
  respelled : ∀ source content other, List.Forall₂ LinesAlike (lines content) (lines other) →
    parseAs policy source content = parseAs policy source other
  parseAs_eq_ok_iff : ∀ source content commands, parseAs policy source content = .ok commands ↔
    ∃ tokens, AreTokensOf policy (lines content) tokens ∧ tokens.filterMap spelled? = commands
  spelled_iff : ∀ tokens others, spelled? tokens = spelled? others ↔
    TokensAlike (.ok tokens) (.ok others)

theorem foldsNamesOnly (policy : NamePolicy) : FoldsNamesOnly policy where
  respelled source content other h := by
    rw [parseAs, parseAs, parse, parse, commandsOfLines_eq_of_linesAlike h]
  parseAs_eq_ok_iff source content commands := by
    rw [Script.parseAs_eq_ok_iff, parse, commandsOfLines_eq_ok_iff]
  spelled_iff _ _ := spelled?_eq_iff

end Script

/-- Folding decides nothing about what is accepted as a name, and tells names apart unless they are
the same but for the case of ASCII letters. Argument lists and scripts are read in the same way when
names are respelled in that manner, and keep all else as it is given. -/
theorem names_alone_are_folded (library : ScriptLibrary) (policy : NamePolicy) :
    (∀ name, policy.accepts (canonicalName name) = policy.accepts name ∧
        canonicalName (canonicalName name) = canonicalName name) ∧
      (∀ first second, canonicalName first = canonicalName second ↔ SameButCase first second) ∧
      Arguments.FoldsNamesOnly library policy ∧ Script.FoldsNamesOnly policy :=
  ⟨fun name ↦ ⟨policy.accepts_canonicalName name, canonicalName_canonicalName name⟩,
    fun _ _ ↦ canonicalName_eq_iff, Arguments.foldsNamesOnly library policy,
    Script.foldsNamesOnly policy⟩

/-- The name behind a lone dash and the one behind its own are respelled, and the argument between
them is not; a script that is missing is cited with its capital. The Kelvin sign is no letter of
ASCII, so it is not folded. -/
theorem names_alone_are_folded_kelvin :
    let library : ScriptLibrary := fun _ ↦ none
    let stream : CommandStream :=
      { commands := [{ name := "go", args := ["Now"] }, { name := "load", args := [] }] }
    Arguments.parse library .strict ["-gO", "Now", "-", "load"] = .ok stream ∧
      (∃ scripts groups, Arguments.IsComposedOf library .strict ["-Go", "Now", "-", "LOAD"] stream
        scripts groups) ∧
      "Boot.fab" ∈ Arguments.scriptNames ["Boot.fab", "-go"] ∧
      Script.parseAs .strict "a.fab" (Utf8.encode "Say Hi\n") =
        Script.parseAs .strict "a.fab" (Utf8.encode "sAY Hi\n") ∧
      canonicalName "\u212Ax" ≠ canonicalName "kx" := by
  intro library stream
  obtain ⟨-, hfold, harguments, hscripts⟩ := names_alone_are_folded library .strict
  have hparse : Arguments.parse library .strict ["-Go", "Now", "-", "LOAD"] = .ok stream := rfl
  have hmissing : Arguments.parse library .strict ["Boot.fab", "-go"] =
      .error (.unreadable "Boot.fab") := rfl
  have hgo : Arguments.GivesName [] "-Go" "Go" := .inr (by decide)
  have hload : Arguments.GivesName ["-Go", "Now", "-"] "LOAD" "LOAD" := .inl ⟨rfl, rfl⟩
  have hargs : Arguments.RespellsAll [] ["-Go", "Now", "-", "LOAD"] ["-gO", "Now", "-", "load"] :=
    .cons (.inr ⟨⟨_, hgo⟩, by decide⟩) <| .cons (.inl rfl) <| .cons (.inl rfl) <|
      .cons (.inr ⟨⟨_, hload⟩, by decide⟩) (.nil _)
  have hsay : Script.lines (Utf8.encode "Say Hi\n") = ["Say Hi"] :=
    @lines_encode_unlines ["Say Hi".toList] (by decide) (by decide)
  have hother : Script.lines (Utf8.encode "sAY Hi\n") = ["sAY Hi"] :=
    @lines_encode_unlines ["sAY Hi".toList] (by decide) (by decide)
  have hname : List.Forall₂ SameLetter "Say".toList "sAY".toList :=
    canonicalName_eq_iff.mp (by decide)
  have hlines : List.Forall₂ Script.LinesAlike (Script.lines (Utf8.encode "Say Hi\n"))
      (Script.lines (Utf8.encode "sAY Hi\n")) := by
    rw [hsay, hother]
    exact .cons (.command hname ["Hi".toList]) .nil
  exact ⟨(harguments.respelled _ _ hargs).symm.trans hparse, harguments.composed _ _ hparse,
    harguments.cited _ _ hmissing _ rfl, hscripts.respelled "a.fab" _ _ hlines,
    (hfold _ _).not.mpr (by decide)⟩

end CommandScript
