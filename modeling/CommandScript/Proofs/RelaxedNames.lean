import CommandScript.Proofs.FirstFault
import Mathlib.Tactic.SplitIfs
/-!
# Relaxed names

The relaxed policy accepts what the strict one accepts and lone letters besides. Readings under the
two go the same way up to the first lone letter that stands for a name, and there the strict one
fails. That is shown for the tokens of a line, the lines of a script, the arguments of a list in
turn: the two results are the same, or a lone letter is refused (`commandsOfLines_relaxed`,
`step_relaxed`, `readFrom_relaxed`). So relaxing the policy keeps every result but those failures
(`parse_and_parseAs_relaxed`).
-/

set_option autoImplicit false
set_option relaxedAutoImplicit false

namespace CommandScript

/-! ### Lone letters -/

/-- A text of one character, a letter of ASCII or an underscore. -/
def IsLoneLetter (name : String) : Prop :=
  ∃ c : Char, name.toList = [c] ∧ (c.isAlpha = true ∨ c = '_')

theorem NamePolicy.accepts_relaxed_iff {name : String} :
    relaxed.accepts name = true ↔ strict.accepts name = true ∨ IsLoneLetter name := by
  rw [accepts, accepts, IsLoneLetter]
  rcases name.toList with _ | ⟨c, _ | ⟨d, rest⟩⟩
  · simp [strict]
  · simp [strict, relaxed, isNameStart]
  · simp [strict]

/-- The policies differ on lone letters only, and these the strict one refuses. -/
theorem NamePolicy.accepts_relaxed_eq_or (name : String) :
    relaxed.accepts name = strict.accepts name ∨
      strict.accepts name = false ∧ IsLoneLetter name := by
  cases hstrict : strict.accepts name with
  | true => exact Or.inl (accepts_relaxed_iff.mpr (Or.inl hstrict))
  | false =>
    cases hrelaxed : relaxed.accepts name with
    | false => exact Or.inl rfl
    | true =>
      have hletter := (accepts_relaxed_iff.mp hrelaxed).resolve_left (Bool.eq_false_iff.mp hstrict)
      exact Or.inr ⟨rfl, hletter⟩

/-! ### Scripts -/

namespace Script

/-- A line gives a name that the policy refuses: its first token. -/
def RefusesLine (policy : NamePolicy) (line name : String) : Prop :=
  ∃ args, tokenize (trim line.toList) = .ok (name.toList :: args) ∧ policy.accepts name = false

/-- A script is refused for a name: the lines up to the one that gives it can be read. -/
def Refuses (policy : NamePolicy) (lines : List String) (name : String) : Prop :=
  ∃ before line after, lines = before ++ line :: after ∧
    (∃ commands, commandsOfLines policy before = .ok commands) ∧ RefusesLine policy line name

theorem commandOfLine_relaxed (line : String) :
    commandOfLine .relaxed line = commandOfLine .strict line ∨
      ∃ name, RefusesLine .strict line name ∧ IsLoneLetter name ∧
        commandOfLine .strict line = .error .invalidName := by
  rw [commandOfLine, commandOfLine]
  cases htokens : tokenize (trim line.toList) with
  | error what => exact Or.inl rfl
  | ok tokens =>
    cases tokens with
    | nil => exact Or.inl rfl
    | cons first args =>
      simp only [List.map_cons, commandOfTokens]
      rcases NamePolicy.accepts_relaxed_eq_or (String.ofList first) with
        hsame | ⟨hrefused, hletter⟩
      · rw [hsame]
        exact Or.inl rfl
      · rw [if_neg (Bool.eq_false_iff.mp hrefused)]
        refine Or.inr ⟨String.ofList first, ⟨args, ?_, hrefused⟩, hletter, rfl⟩
        rw [htokens, String.toList_ofList]

/-- The lines of a script say the same under both policies, or one of them is refused for a lone
letter. -/
theorem commandsOfLines_relaxed (lines : List String) :
    commandsOfLines .relaxed lines = commandsOfLines .strict lines ∨
      ∃ name, Refuses .strict lines name ∧ IsLoneLetter name ∧
        commandsOfLines .strict lines = .error .invalidName := by
  induction lines with
  | nil => exact Or.inl rfl
  | cons line lines ih =>
    rw [commandsOfLines, commandsOfLines]
    rcases commandOfLine_relaxed line with hsame | ⟨name, hrefused, hletter, hline⟩
    · rw [hsame]
      cases hline : commandOfLine .strict line with
      | error issue => exact Or.inl rfl
      | ok command =>
        rcases ih with hsame | ⟨name, hrefused, hletter, hlines⟩
        · rw [hsame]
          exact Or.inl rfl
        · obtain ⟨before, other, after, rfl, ⟨commands, hbefore⟩, hother⟩ := hrefused
          refine Or.inr ⟨name, ⟨line :: before, other, after, rfl, ?_, hother⟩, hletter, ?_⟩
          · exact ⟨command.toList ++ commands, by rw [commandsOfLines, hline, hbefore]; rfl⟩
          · rw [hlines]
            rfl
    · rw [hline]
      exact Or.inr ⟨name, ⟨[], line, lines, rfl, ⟨[], rfl⟩, hrefused⟩, hletter, rfl⟩

theorem parseAs_relaxed (source : String) (content : Bytes) :
    parseAs .relaxed source content = parseAs .strict source content ∨
      ∃ name, Refuses .strict (lines content) name ∧ IsLoneLetter name ∧
        parseAs .strict source content = .error (.badLine source .invalidName) := by
  rw [parseAs, parseAs, parse, parse]
  rcases commandsOfLines_relaxed (lines content) with hsame | ⟨name, hrefused, hletter, hlines⟩
  · rw [hsame]
    exact Or.inl rfl
  · rw [hlines]
    exact Or.inr ⟨name, hrefused, hletter, rfl⟩

end Script

/-! ### Argument lists -/

namespace Arguments

/-- An argument is refused for a name: one that it gives itself, or one in the script that it
names. -/
inductive Refuses (library : ScriptLibrary) (policy : NamePolicy) (before : List String)
    (arg : String) : String → Failure → Prop
  | argument {name : String} (hdash : ¬ IsDashSuccession before arg)
    (hname : GivesName before arg name) (hrefused : policy.accepts name = false) :
    Refuses library policy before arg name .invalidName
  | script {name : String} {file : ScriptFile}
    (hbefore : ∀ other ∈ before, startsWithDash other = false)
    (harg : startsWithDash arg = false) (hfile : library arg = some file)
    (hrefused : Script.Refuses policy (Script.lines file.content) name) :
    Refuses library policy before arg name (.badLine arg .invalidName)

section Relaxing

variable {library : ScriptLibrary} {state : State} {read : List String}

theorem load_relaxed (library : ScriptLibrary) (source : String) :
    library.load .relaxed source = library.load .strict source ∨
      ∃ file name, library source = some file ∧
        Script.Refuses .strict (Script.lines file.content) name ∧ IsLoneLetter name ∧
          library.load .strict source = .error (.badLine source .invalidName) := by
  rw [ScriptLibrary.load, ScriptLibrary.load]
  cases library source with
  | none => exact Or.inl rfl
  | some file =>
    dsimp only
    rcases Script.parseAs_relaxed source file.content with
      hsame | ⟨name, hrefused, hletter, hparse⟩
    · rw [hsame]
      exact Or.inl rfl
    · rw [hparse]
      exact Or.inr ⟨file, name, rfl, hrefused, hletter, rfl⟩

theorem begin_relaxed (state : State) (name : String) :
    state.begin .relaxed name = state.begin .strict name ∨
      NamePolicy.strict.accepts name = false ∧ IsLoneLetter name ∧
        state.begin .strict name = .error .invalidName := by
  rcases NamePolicy.accepts_relaxed_eq_or name with hsame | ⟨hrefused, hletter⟩
  · rw [State.begin, State.begin, hsame]
    exact Or.inl rfl
  · exact Or.inr ⟨hrefused, hletter, State.begin_eq_error_iff.mpr ⟨hrefused, rfl⟩⟩

theorem take_relaxed (hsound : state.draft.IsSound) (text : String) :
    state.take library .relaxed text = state.take library .strict text ∨
      state.draft.hasOpen = false ∧ ∃ file name, library text = some file ∧
        Script.Refuses .strict (Script.lines file.content) name ∧ IsLoneLetter name ∧
          state.take library .strict text = .error (.badLine text .invalidName) := by
  cases hopen : state.draft.hasOpen with
  | true =>
    rw [State.take_of_hasOpen hsound hopen, State.take_of_hasOpen hsound hopen]
    exact Or.inl rfl
  | false =>
    rcases load_relaxed library text with hsame | ⟨file, name, hfile, hrefused, hletter, hload⟩
    · rw [State.take_of_not_hasOpen hsound hopen, State.take_of_not_hasOpen hsound hopen, hsame]
      exact Or.inl rfl
    · exact Or.inr ⟨rfl, file, name, hfile, hrefused, hletter,
        (State.take_eq_error_iff hsound).mpr ⟨hopen, hload⟩⟩

/-- An argument is read in the same way under both policies, or it is refused for a lone letter. -/
theorem step_relaxed (h : state.Follows read) (arg : String) :
    state.step library .relaxed (Argument.ofString arg) =
        state.step library .strict (Argument.ofString arg) ∨
      ∃ name failure, Refuses library .strict read arg name failure ∧ IsLoneLetter name ∧
        state.step library .strict (Argument.ofString arg) = .error failure := by
  rcases exists_shape arg with rfl | ⟨name, hne, rfl⟩ | harg
  · exact Or.inl rfl
  · have hdash := @isDashSuccession_dash_append_iff read name
    rw [← h.awaitsName_iff, ← Bool.or_eq_true] at hdash
    rw [Argument.ofString_dashed hne, State.step, State.step]
    split_ifs with hflags
    · exact Or.inl rfl
    · refine (begin_relaxed state name).imp_right ?_
      rintro ⟨hrefused, hletter, hbegin⟩
      have hname : GivesName read ("-" ++ name) name := Or.inr ⟨hne, rfl⟩
      exact ⟨name, _, .argument (hdash.not.mpr hflags) hname hrefused, hletter, hbegin⟩
  · rw [Argument.ofString_bare harg, State.step, State.step]
    split_ifs with hawaits
    · refine (begin_relaxed state arg).imp_right ?_
      rintro ⟨hrefused, hletter, hbegin⟩
      have hname : GivesName read arg arg := Or.inl ⟨h.awaitsName_iff.mp hawaits, rfl⟩
      exact ⟨arg, _, .argument (not_isDashSuccession harg) hname hrefused, hletter, hbegin⟩
    · refine (take_relaxed h.isSound arg).imp_right ?_
      rintro ⟨hopen, file, name, hfile, hrefused, hletter, htake⟩
      have hbefore := h.bare_iff.mpr (by simp [State.isPastScripts, hopen, hawaits])
      exact ⟨name, _, .script hbefore harg hfile hrefused, hletter, htake⟩

/-- Some arguments are read in the same way under both policies, or one of them is refused for a
lone letter. -/
theorem readFrom_relaxed (h : state.Follows read) (args : List String) :
    readFrom library .relaxed state args = readFrom library .strict state args ∨
      ∃ before arg after name failure, args = before ++ arg :: after ∧
        (∃ next, readFrom library .strict state before = .ok next) ∧
          Refuses library .strict (read ++ before) arg name failure ∧ IsLoneLetter name ∧
            readFrom library .strict state args = .error failure := by
  induction args generalizing state read with
  | nil => exact Or.inl rfl
  | cons arg args ih =>
    rw [readFrom_cons, readFrom_cons]
    rcases step_relaxed h arg with hsame | ⟨name, failure, hrefused, hletter, hstep⟩
    · rw [hsame]
      cases hstep : state.step library .strict (Argument.ofString arg) with
      | error failure => exact Or.inl rfl
      | ok next =>
        refine (ih (h.step hstep)).imp_right ?_
        rintro ⟨before, other, after, name, failure, rfl, ⟨last, hbefore⟩, hrefused, hletter,
          hfails⟩
        refine ⟨arg :: before, other, after, name, failure, rfl, ⟨last, ?_⟩, ?_, hletter, hfails⟩
        · rw [readFrom_of_step hstep, hbefore]
        · rwa [List.append_assoc, List.singleton_append] at hrefused
    · rw [hstep]
      refine Or.inr ⟨[], arg, args, name, failure, rfl, ⟨state, rfl⟩, ?_, hletter, rfl⟩
      rwa [List.append_nil]

/-- A list is refused for a name: it can be read up to the argument that is refused. -/
def RefusesList (library : ScriptLibrary) (policy : NamePolicy) (args : List String) (name : String)
    (failure : Failure) : Prop :=
  ∃ before arg after, args = before ++ arg :: after ∧
    (∃ stream, parse library policy before = .ok stream) ∧
      Refuses library policy before arg name failure

theorem parse_relaxed (library : ScriptLibrary) (args : List String) :
    parse library .relaxed args = parse library .strict args ∨
      ∃ name failure, RefusesList library .strict args name failure ∧ IsLoneLetter name ∧
        parse library .strict args = .error failure := by
  rcases @readFrom_relaxed library {} [] State.follows_nil args with
    hsame | ⟨before, arg, after, name, failure, hargs, ⟨next, hbefore⟩, hrefused, hletter, hfails⟩
  · rw [parse, parse, hsame]
    exact Or.inl rfl
  · have hread := parse_eq_ok_iff.mpr ⟨next, hbefore, rfl⟩
    exact Or.inr ⟨name, failure, ⟨before, arg, after, hargs, ⟨_, hread⟩, hrefused⟩, hletter,
      parse_eq_error_iff_readFrom.mpr hfails⟩

end Relaxing

end Arguments

/-! ### Results that are relaxed -/

/-- The failures that blame a name. -/
def Failure.BlamesName (failure : Failure) : Prop :=
  failure = .invalidName ∨ ∃ script, failure = .badLine script .invalidName

/-- What succeeds strictly succeeds just so when relaxed, and what fails strictly, but not for a
name, fails just so. If there is any difference, then a lone letter was refused for a name. -/
structure Relaxes {α : Type} (refuses : String → Failure → Prop)
    (strict relaxed : Except Failure α) : Prop where
  of_ok : ∀ value, strict = .ok value → relaxed = .ok value
  of_error : ∀ failure, strict = .error failure → ¬ failure.BlamesName → relaxed = .error failure
  of_ne : strict ≠ relaxed → ∃ failure name, strict = .error failure ∧ failure.BlamesName ∧
    refuses name failure ∧ IsLoneLetter name

theorem Relaxes.of_eq_or {α : Type} {refuses : String → Failure → Prop}
    {strict relaxed : Except Failure α} (hblames : ∀ name failure, refuses name failure →
      failure.BlamesName)
    (h : relaxed = strict ∨
      ∃ name failure, refuses name failure ∧ IsLoneLetter name ∧ strict = .error failure) :
    Relaxes refuses strict relaxed := by
  rcases h with rfl | ⟨name, failure, hrefused, hletter, rfl⟩
  · exact ⟨fun _ ↦ id, fun _ h _ ↦ h, fun hne ↦ absurd rfl hne⟩
  · refine ⟨fun value h ↦ ?_, fun other h hname ↦ ?_, fun _ ↦ ?_⟩
    · cases h
    · obtain rfl := Except.error.inj h
      exact absurd (hblames name failure hrefused) hname
    · exact ⟨failure, name, rfl, hblames name failure hrefused, hrefused, hletter⟩

theorem Arguments.blamesName_of_refusesList {library : ScriptLibrary} {policy : NamePolicy}
    {args : List String} {name : String} {failure : Failure}
    (h : RefusesList library policy args name failure) : failure.BlamesName := by
  obtain ⟨before, arg, after, -, -, hrefused⟩ := h
  cases hrefused with
  | argument => exact Or.inl rfl
  | script => exact Or.inr ⟨arg, rfl⟩

/-- Relaxing the policy changes nothing but failures for a lone letter, be it for the arguments or
for a script. -/
theorem parse_and_parseAs_relaxed (library : ScriptLibrary) (args : List String) (source : String)
    (content : Bytes) :
    Relaxes (Arguments.RefusesList library .strict args) (Arguments.parse library .strict args)
        (Arguments.parse library .relaxed args) ∧
      Relaxes (fun name failure ↦ failure = .badLine source .invalidName ∧
          Script.Refuses .strict (Script.lines content) name)
        (Script.parseAs .strict source content) (Script.parseAs .relaxed source content) := by
  constructor
  · exact .of_eq_or (fun _ _ ↦ Arguments.blamesName_of_refusesList)
      (Arguments.parse_relaxed library args)
  · refine .of_eq_or (fun name failure ⟨h, _⟩ ↦ Or.inr ⟨source, h⟩) ?_
    refine (Script.parseAs_relaxed source content).imp_right ?_
    rintro ⟨name, hrefused, hletter, hparse⟩
    exact ⟨name, _, ⟨rfl, hrefused⟩, hletter, hparse⟩

/-- A lone letter in capitals, behind a command that both policies accept. -/
theorem parse_and_parseAs_relaxed_lone_letter :
    Arguments.parse (fun _ ↦ none) .relaxed ["-go", "-X", "1"] =
        .ok { commands := [{ name := "go", args := [] }, { name := "x", args := ["1"] }] } ∧
      ∃ failure name, Arguments.parse (fun _ ↦ none) .strict ["-go", "-X", "1"] = .error failure ∧
        failure.BlamesName ∧ Arguments.RefusesList (fun _ ↦ none) .strict ["-go", "-X", "1"] name
          failure ∧ IsLoneLetter name :=
  ⟨rfl, (parse_and_parseAs_relaxed (fun _ ↦ none) ["-go", "-X", "1"] "a.fab" []).1.of_ne
    (by decide)⟩

end CommandScript
