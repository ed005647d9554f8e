import CommandScript.Proofs.FirstFault
/-!
# Argument lists at their dashes

A dash in front of a name does what a lone dash and then the name do, in every state of the loop
(`readFrom_dash_cons`), and the name may be one that the policy refuses, or begin with dashes
itself. Only the empty name is different, since a dash with nothing behind it is a lone dash. So
`-name` may always be written `- name` (`parse_dash_apart`).

At a dash a list can also be cut. A step does the same whatever commands stand in front of those of
its state (`step_behind`), and so does a reading (`readFrom_behind`). Which command is open is lost
at the cut, but nothing asks for it any more: what a dash leads to depends on the commands alone
(`readFrom_congr_of_dash`). So two lists are read one after the other, the second as it is read by
itself (`parse_append_at_dash`).
-/

set_option autoImplicit false
set_option relaxedAutoImplicit false

namespace CommandScript

/-! ### Commands in front of a draft -/

namespace Draft

/-- The draft with commands in front of all of its own. -/
def behind (draft : Draft) (commands : List Command) : Draft where
  commands := commands ++ draft.commands
  current := draft.current.map (commands.length + ·)

variable (draft : Draft) (commands : List Command)

@[simp]
theorem commands_behind : (draft.behind commands).commands = commands ++ draft.commands :=
  rfl

theorem begin_behind (name : String) :
    (draft.behind commands).begin name = (draft.begin name).behind commands := by
  simp [begin, behind]

theorem addArg?_behind (arg : String) :
    (draft.behind commands).addArg? arg = (draft.addArg? arg).map (·.behind commands) := by
  unfold addArg? behind
  cases draft.current with
  | none => rfl
  | some index =>
    have hplace : (commands ++ draft.commands)[commands.length + index]? =
        draft.commands[index]? := by
      rw [List.getElem?_append_right (Nat.le_add_right _ _), Nat.add_sub_cancel_left]
    cases hcommand : draft.commands[index]? <;> simp [hplace, hcommand]

theorem splice_behind (others : List Command) :
    (draft.behind commands).splice others = (draft.splice others).behind commands := by
  simp [behind, splice]

/-- A command is begun behind all others, whichever of them was open. -/
theorem begin_congr {draft other : Draft} (h : draft.commands = other.commands) (name : String) :
    draft.begin name = other.begin name := by
  unfold begin
  rw [h]

end Draft

namespace Arguments

section Step

variable {library : ScriptLibrary} {policy : NamePolicy} {state : State} {name : String}

/-! ### Steps at a dash -/

theorem State.begin_congr {other : State} (h : state.draft.commands = other.draft.commands)
    (name : String) : state.begin policy name = other.begin policy name := by
  unfold State.begin
  rw [Draft.begin_congr h]

/-- Where a name is awaited, an argument is a dash too many or the name. -/
theorem step_of_awaitsName (hawaits : state.awaitsName = true) (arg : String) :
    state.step library policy (Argument.ofString arg) =
      if startsWithDash arg then .error .dashSuccession else state.begin policy arg := by
  rcases exists_shape arg with rfl | ⟨name, hne, rfl⟩ | harg
  · change state.step library policy .dash = _
    rw [State.step, if_pos hawaits]
    rfl
  · rw [Argument.ofString_dashed hne, State.step, hawaits, startsWithDash_dash_append]
    rfl
  · rw [Argument.ofString_bare harg, State.step, if_pos hawaits, harg]
    rfl

/-- The two steps of a lone dash and a name are the one step of the name behind its dash. -/
theorem step_dash_bind_step (name : String) :
    (state.step library policy .dash >>= fun next ↦
      next.step library policy (Argument.ofString name)) =
        state.step library policy (.dashed name) := by
  unfold State.step
  by_cases hawaits : state.awaitsName = true
  · rw [if_pos hawaits, hawaits]
    rfl
  · rw [if_neg hawaits, Bool.eq_false_iff.mpr hawaits]
    exact step_of_awaitsName rfl name

end Step

/-! ### One list, two spellings -/

section Spelling

variable {library : ScriptLibrary} {policy : NamePolicy} {name : String}

theorem readFrom_dash_cons (hname : name ≠ "") (state : State) (rest : List String) :
    readFrom library policy state ("-" :: name :: rest) =
      readFrom library policy state (("-" ++ name) :: rest) := by
  rw [readFrom_cons library policy state ("-" ++ name), Argument.ofString_dashed hname,
    ← step_dash_bind_step, bind_assoc]
  rfl

/-- A dash may stand apart from what follows it, wherever it stands and whatever follows. -/
theorem parse_dash_apart (library : ScriptLibrary) (policy : NamePolicy)
    (before after : List String) (hname : name ≠ "") :
    parse library policy (before ++ ["-", name] ++ after) =
      parse library policy (before ++ ["-" ++ name] ++ after) := by
  have hread (state : State) : readFrom library policy state (["-", name] ++ after) =
      readFrom library policy state (["-" ++ name] ++ after) := readFrom_dash_cons hname state after
  unfold parse
  rw [List.append_assoc, List.append_assoc, readFrom_append, readFrom_append, bind_congr hread]

/-- With a dash too many behind the dash, and arguments in front that have opened a command. -/
theorem parse_dash_apart_verbose :
    "-verbose" ≠ "" ∧
      parse (fun _ ↦ none) .strict (["-go", "now"] ++ ["-", "-verbose"] ++ ["-1"]) =
        parse (fun _ ↦ none) .strict (["-go", "now"] ++ ["--verbose"] ++ ["-1"]) :=
  have hname : "-verbose" ≠ "" := by decide
  ⟨hname, parse_dash_apart (fun _ ↦ none) .strict ["-go", "now"] ["-1"] hname⟩

end Spelling

/-! ### Commands in front of a reading -/

section Behind

/-- The state with commands in front of all of its own. -/
def State.behind (state : State) (commands : List Command) : State :=
  { state with draft := state.draft.behind commands }

variable {library : ScriptLibrary} {policy : NamePolicy} (state : State) (commands : List Command)

theorem State.result_behind : (state.behind commands).result =
    { commands := commands ++ state.result.commands, fromStdin := state.result.fromStdin } :=
  congrArg (CommandStream.mk · state.awaitsName) (state.draft.commands_behind commands)

theorem State.begin_behind (name : String) :
    (state.behind commands).begin policy name =
      (·.behind commands) <$> state.begin policy name := by
  unfold State.begin State.behind
  rw [Draft.begin_behind]
  split_ifs <;> rfl

theorem State.take_behind (text : String) :
    (state.behind commands).take library policy text =
      (·.behind commands) <$> state.take library policy text := by
  unfold State.take State.behind
  rw [Draft.addArg?_behind]
  cases state.draft.addArg? text with
  | some draft => rfl
  | none =>
    simp only [Option.map_none, Draft.splice_behind]
    cases library.load policy text <;> rfl

theorem step_behind (argument : Argument) :
    (state.behind commands).step library policy argument =
      (·.behind commands) <$> state.step library policy argument := by
  have hawaits : (state.behind commands).awaitsName = state.awaitsName := rfl
  cases argument with
  | dash =>
    simp only [State.step, hawaits]
    split_ifs <;> rfl
  | dashed name =>
    simp only [State.step, hawaits, State.begin_behind]
    split_ifs <;> rfl
  | bare text =>
    simp only [State.step, hawaits, State.begin_behind, State.take_behind]
    split_ifs <;> rfl

theorem readFrom_behind (args : List String) :
    readFrom library policy (state.behind commands) args =
      (·.behind commands) <$> readFrom library policy state args := by
  induction args generalizing state with
  | nil => rfl
  | cons arg args ih =>
    rw [readFrom_cons, readFrom_cons, step_behind]
    cases state.step library policy (Argument.ofString arg) with
    | error failure => rfl
    | ok next => exact ih next

end Behind

/-! ### Lists cut at a dash -/

section Cut

variable {library : ScriptLibrary} {policy : NamePolicy}

theorem State.result_congr {draft other : Draft} (h : draft.commands = other.commands)
    (awaitsName : Bool) : (State.mk draft awaitsName).result = (State.mk other awaitsName).result :=
  congrArg (CommandStream.mk · awaitsName) h

/-- From a dash on, a reading that awaits no name depends on the commands so far, but not on which
of them is open. -/
theorem readFrom_congr_of_dash {draft other : Draft} (h : draft.commands = other.commands)
    {args : List String} (hargs : ∀ arg ∈ args.head?, startsWithDash arg = true) :
    State.result <$> readFrom library policy { draft := draft } args =
      State.result <$> readFrom library policy { draft := other } args := by
  -- Behind a lone dash the list ends, or the next argument begins a command or fails.
  have hdash (rest : List String) :
      State.result <$> readFrom library policy { draft := draft } ("-" :: rest) =
        State.result <$> readFrom library policy { draft := other } ("-" :: rest) := by
    have hstep (draft : Draft) : State.step library policy { draft := draft }
        (Argument.ofString "-") = .ok { draft := draft, awaitsName := true } := rfl
    rw [readFrom_of_step (hstep draft), readFrom_of_step (hstep other)]
    cases rest with
    | nil => exact congrArg Except.ok (State.result_congr h true)
    | cons name rest =>
      have hbegin : State.begin policy { draft := draft, awaitsName := true } name =
          State.begin policy { draft := other, awaitsName := true } name := State.begin_congr h name
      rw [readFrom_cons, readFrom_cons, step_of_awaitsName rfl, step_of_awaitsName rfl, hbegin]
  cases args with
  | nil => exact congrArg Except.ok (State.result_congr h false)
  | cons arg rest =>
    rcases Argument.eq_dash_or_dashed (hargs arg rfl) with rfl | ⟨name, hne, rfl⟩
    · exact hdash rest
    · rw [← readFrom_dash_cons hne, ← readFrom_dash_cons hne]
      exact hdash (name :: rest)

/-- A list whose last argument is no lone dash and a list that starts with a dash, or is empty, are
read one after the other: a failure of the first comes first, the second fails as it does by itself,
and otherwise the commands follow one another. The second alone tells whether more are to come. -/
theorem parse_append_at_dash (library : ScriptLibrary) (policy : NamePolicy)
    {before after : List String} (hbefore : before.getLast? ≠ some "-")
    (hafter : ∀ arg ∈ after.head?, startsWithDash arg = true) :
    parse library policy (before ++ after) = (do
        let earlier ← parse library policy before
        let later ← parse library policy after
        return { commands := earlier.commands ++ later.commands, fromStdin := later.fromStdin }) ∧
      (after = [] → parse library policy after = .ok { commands := [], fromStdin := false }) := by
  refine ⟨?_, by rintro rfl; rfl⟩
  unfold parse
  rw [readFrom_append]
  cases hread : readFrom library policy {} before with
  | error failure => rfl
  | ok state =>
    obtain ⟨draft, awaitsName⟩ := state
    have hawaits : awaitsName = false :=
      Bool.eq_false_iff.mpr (mt (State.follows_nil.readFrom hread).awaitsName_iff.mp hbefore)
    subst hawaits
    have hsame : draft.commands = (Draft.behind {} draft.commands).commands := by
      rw [Draft.commands_behind]
      exact (List.append_nil _).symm
    calc State.result <$> readFrom library policy { draft := draft } after
      _ = State.result <$> readFrom library policy (State.behind {} draft.commands) after :=
        readFrom_congr_of_dash hsame hafter
      _ = State.result <$> (·.behind draft.commands) <$> readFrom library policy {} after := by
        rw [readFrom_behind]
      _ = _ := by
        cases readFrom library policy {} after with
        | error failure => rfl
        | ok final => exact congrArg Except.ok (final.result_behind draft.commands)

/-- The second list closes the command that the first has left open. -/
theorem parse_append_at_dash_go :
    parse (fun _ ↦ none) .strict (["-go", "now"] ++ ["-", "RUN", "x", "-"]) =
      .ok
        { commands := [{ name := "go", args := ["now"] }, { name := "run", args := ["x"] }]
          fromStdin := true } :=
  (parse_append_at_dash (fun _ ↦ none) .strict (by decide) (by decide)).1

end Cut

end Arguments

end CommandScript
