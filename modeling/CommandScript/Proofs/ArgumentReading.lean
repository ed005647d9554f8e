import CommandScript.Arguments
import CommandScript.Proofs.Names
import CommandScript.Proofs.Results
import Mathlib.Tactic.SplitIfs
/-!
# How argument lists are read

The equations of the argument loop, for each run of arguments that belong together: a dash and the
name that it announces (`readFrom_announce`), the arguments of the command that is open
(`readFrom_ownArgs`), and a script in front of all commands (`readFrom_script`). What a dash can do
is said once for all states that wait for no name (`readFrom_dash_eq_ok`), and so is what keeps
scripts out: from the first dash on a command is open or a name is awaited, and no reading consults
the library any more (`readFrom_eq_of_isPastScripts`).
-/

set_option autoImplicit false
set_option relaxedAutoImplicit false

namespace CommandScript

namespace Draft

/-- Gives the open command several arguments at once, if there is one. -/
def addArgs (draft : Draft) (args : List String) : Draft :=
  { draft with
    commands := match draft.current with
      | none => draft.commands
      | some index => draft.commands.modify index fun command ↦
          { command with args := command.args ++ args } }

@[simp]
theorem addArgs_nil (draft : Draft) : draft.addArgs [] = draft := by
  obtain ⟨commands, current⟩ := draft
  cases current with
  | none => rfl
  | some index =>
    have hsame : (fun command : Command ↦ { command with args := command.args ++ [] }) = id :=
      funext fun command ↦ by simp
    simp only [addArgs, hsame, List.modify_id]

@[simp]
theorem hasOpen_addArgs (draft : Draft) (args : List String) :
    (draft.addArgs args).hasOpen = draft.hasOpen :=
  rfl

theorem IsSound.addArgs {draft : Draft} (h : draft.IsSound) (args : List String) :
    (draft.addArgs args).IsSound := by
  intro index hindex
  have hlt : index < draft.commands.length := h index hindex
  rw [Draft.addArgs]
  cases draft.current with
  | none => exact hlt
  | some place => simpa using hlt

@[simp]
theorem commands_addArgs_begin (draft : Draft) (name : String) (args : List String) :
    ((draft.begin name).addArgs args).commands =
      draft.commands ++ [{ name := name, args := args }] := by
  simp [addArgs, begin, List.modify_eq_take_cons_drop]

theorem addArg?_eq_some {draft : Draft} (h : draft.IsSound) (hopen : draft.hasOpen = true)
    (arg : String) : draft.addArg? arg = some (draft.addArgs [arg]) := by
  obtain ⟨index, hindex⟩ := Option.isSome_iff_exists.mp hopen
  have hlt : index < draft.commands.length := h index hindex
  rw [addArg?, addArgs, hindex]
  simp [hlt, List.modify_eq_take_cons_drop, List.set_eq_take_append_cons_drop, Command.addArg]

theorem addArgs_cons (draft : Draft) (arg : String) (args : List String) :
    draft.addArgs (arg :: args) = (draft.addArgs [arg]).addArgs args := by
  obtain ⟨commands, current⟩ := draft
  cases current with
  | none => rfl
  | some index => simp [addArgs, List.modify_modify_eq, Function.comp_def]

end Draft

/-! ### What an argument looks like -/

theorem NamePolicy.startsWithDash_of_accepts {policy : NamePolicy} {name : String}
    (h : policy.accepts name = true) : startsWithDash name = false := by
  obtain ⟨c, cs, hname, hstart, -⟩ := toList_of_accepts h
  have hdash : c ≠ '-' := by
    rintro rfl
    exact absurd hstart (by decide)
  simp [startsWithDash, hname, hdash]

namespace Argument

theorem ofString_bare {text : String} (h : startsWithDash text = false) :
    ofString text = .bare text := by
  rw [startsWithDash] at h
  unfold ofString
  split
  · next htext => simp [htext] at h
  · next htext => simp [htext] at h
  · rfl

theorem ofString_dashed {name : String} (h : name ≠ "") :
    ofString ("-" ++ name) = .dashed name := by
  have htext : ("-" ++ name).toList = '-' :: name.toList := by simp
  unfold ofString
  split
  · next hdash =>
    rw [htext, List.cons.injEq] at hdash
    exact absurd (String.toList_eq_nil_iff.mp hdash.2) h
  · next rest hrest =>
    rw [htext, List.cons.injEq] at hrest
    rw [← hrest.2, String.ofList_toList]
  · next hother => exact absurd htext (hother name.toList)

/-- An argument with a dash in front is a lone dash or a dash with a text behind it. -/
theorem eq_dash_or_dashed {text : String} (h : startsWithDash text = true) :
    text = "-" ∨ ∃ name, name ≠ "" ∧ text = "-" ++ name := by
  rw [startsWithDash, beq_iff_eq] at h
  obtain ⟨rest, htext⟩ := List.head?_eq_some_iff.mp h
  have hname : text = "-" ++ String.ofList rest := by
    apply String.toList_injective
    simp [htext]
  by_cases hrest : rest = []
  · subst hrest
    exact Or.inl hname
  · refine Or.inr ⟨String.ofList rest, fun hempty ↦ hrest ?_, hname⟩
    simpa using congrArg String.toList hempty

end Argument

namespace Arguments

/-! ### One argument -/

section Step

variable {library : ScriptLibrary} {policy : NamePolicy} {state next : State}

theorem State.begin_of_accepts {name : String} (hname : policy.accepts name = true) :
    state.begin policy name = .ok { draft := state.draft.begin (canonicalName name) } := by
  rw [State.begin, if_pos hname]

theorem State.begin_eq_ok {name : String} (h : state.begin policy name = .ok next) :
    policy.accepts name = true ∧ next = { draft := state.draft.begin (canonicalName name) } := by
  rw [State.begin] at h
  split_ifs at h with hname
  exact ⟨hname, (Except.ok.inj h).symm⟩

theorem State.take_of_hasOpen (hsound : state.draft.IsSound) (hopen : state.draft.hasOpen = true)
    (arg : String) :
    state.take library policy arg = .ok { state with draft := state.draft.addArgs [arg] } := by
  rw [State.take, Draft.addArg?_eq_some hsound hopen]

theorem State.take_of_not_hasOpen (hsound : state.draft.IsSound)
    (hclosed : state.draft.hasOpen = false) (name : String) :
    state.take library policy name =
      (library.load policy name).map fun script ↦
        { state with draft := state.draft.splice script.contribution } := by
  rw [State.take, (hsound.addArg?_eq_none_iff _).mpr hclosed]
  cases library.load policy name <;> rfl

/-- No step leads to a draft whose open command is not in the list. -/
theorem isSound_of_step {argument : Argument} (hsound : state.draft.IsSound)
    (hstep : state.step library policy argument = .ok next) : next.draft.IsSound := by
  have hbegin {name : String} (h : state.begin policy name = .ok next) : next.draft.IsSound := by
    obtain ⟨-, rfl⟩ := State.begin_eq_ok h
    exact Draft.isSound_begin _ _
  cases argument with
  | dash =>
    rw [State.step] at hstep
    split_ifs at hstep
    obtain rfl := Except.ok.inj hstep
    exact hsound
  | dashed name =>
    rw [State.step] at hstep
    split_ifs at hstep
    exact hbegin hstep
  | bare text =>
    rw [State.step] at hstep
    split_ifs at hstep
    · exact hbegin hstep
    · cases hopen : state.draft.hasOpen with
      | true =>
        rw [State.take_of_hasOpen hsound hopen] at hstep
        obtain rfl := Except.ok.inj hstep
        exact hsound.addArgs _
      | false =>
        rw [State.take_of_not_hasOpen hsound hopen] at hstep
        obtain ⟨script, -, rfl⟩ := map_eq_ok_iff.mp hstep
        exact hsound.splice _

end Step

/-! ### Runs of arguments -/

section Reading

variable (library : ScriptLibrary) (policy : NamePolicy)

theorem readFrom_cons (state : State) (arg : String) (args : List String) :
    readFrom library policy state (arg :: args) =
      state.step library policy (Argument.ofString arg) >>= fun next ↦
        readFrom library policy next args :=
  rfl

variable {library policy} {state final : State}

theorem readFrom_of_step {next : State} {arg : String}
    (hstep : state.step library policy (Argument.ofString arg) = .ok next) (args : List String) :
    readFrom library policy state (arg :: args) = readFrom library policy next args := by
  rw [readFrom_cons, hstep]
  rfl

/-- A reading of several arguments that succeeds has read the first one. -/
theorem step_of_readFrom {arg : String} {args : List String}
    (h : readFrom library policy state (arg :: args) = .ok final) :
    ∃ next, state.step library policy (Argument.ofString arg) = .ok next ∧
      readFrom library policy next args = .ok final := by
  rw [readFrom_cons] at h
  exact bind_eq_ok_iff.mp h

/-- A list is read part by part. -/
theorem readFrom_append (state : State) (before after : List String) :
    readFrom library policy state (before ++ after) =
      readFrom library policy state before >>= fun next ↦ readFrom library policy next after := by
  induction before generalizing state with
  | nil => rfl
  | cons arg before ih =>
    rw [List.cons_append, readFrom_cons, readFrom_cons]
    cases state.step library policy (Argument.ofString arg) with
    | error failure => rfl
    | ok next => exact ih next

/-- A dash and the name that it announces, which may stand apart. -/
def announce (apart : Bool) (name : String) : List String :=
  if apart then ["-", name] else ["-" ++ name]

theorem readFrom_announce (draft : Draft) {name : String} (hname : policy.accepts name = true)
    (apart : Bool) (rest : List String) :
    readFrom library policy { draft := draft } (announce apart name ++ rest) =
      readFrom library policy { draft := draft.begin (canonicalName name) } rest := by
  have hdash := NamePolicy.startsWithDash_of_accepts hname
  cases apart with
  | true =>
    have hfirst : State.step library policy { draft := draft } (Argument.ofString "-") =
        .ok { draft := draft, awaitsName := true } :=
      rfl
    have hsecond : State.step library policy { draft := draft, awaitsName := true }
        (Argument.ofString name) = .ok { draft := draft.begin (canonicalName name) } := by
      rw [Argument.ofString_bare hdash]
      exact State.begin_of_accepts hname
    exact (readFrom_of_step hfirst (name :: rest)).trans (readFrom_of_step hsecond rest)
  | false =>
    have hne : name ≠ "" := by
      rintro rfl
      exact NamePolicy.toList_ne_nil_of_accepts hname rfl
    refine readFrom_of_step ?_ rest
    rw [Argument.ofString_dashed hne]
    simp only [State.step, hdash, Bool.or_self, Bool.false_eq_true, ↓reduceIte]
    exact State.begin_of_accepts hname

/-- What an argument with a dash can do where no name is awaited: it ends the list and asks for
more, or it announces a name. -/
theorem readFrom_dash_eq_ok {draft : Draft} {arg : String} {args : List String}
    (harg : startsWithDash arg = true)
    (h : readFrom library policy { draft := draft } (arg :: args) = .ok final) :
    arg = "-" ∧ args = [] ∧ final = { draft := draft, awaitsName := true } ∨
      ∃ apart name rest, arg :: args = announce apart name ++ rest ∧
        policy.accepts name = true ∧
          readFrom library policy { draft := draft.begin (canonicalName name) } rest =
            .ok final := by
  obtain ⟨next, hstep, hnext⟩ := step_of_readFrom h
  rcases Argument.eq_dash_or_dashed harg with rfl | ⟨name, hne, rfl⟩
  · obtain rfl : { draft := draft, awaitsName := true } = next := Except.ok.inj hstep
    cases args with
    | nil => exact Or.inl ⟨rfl, rfl, (Except.ok.inj hnext).symm⟩
    | cons name rest =>
      obtain ⟨begun, hname, hrest⟩ := step_of_readFrom hnext
      by_cases hsecond : startsWithDash name = true
      · rcases Argument.eq_dash_or_dashed hsecond with rfl | ⟨text, htext, rfl⟩
        · change State.step library policy _ .dash = .ok begun at hname
          simp [State.step] at hname
        · rw [Argument.ofString_dashed htext] at hname
          simp [State.step] at hname
      · rw [Argument.ofString_bare (Bool.eq_false_iff.mpr hsecond)] at hname
        obtain ⟨haccepts, rfl⟩ := State.begin_eq_ok hname
        exact Or.inr ⟨true, name, rest, rfl, haccepts, hrest⟩
  · rw [Argument.ofString_dashed hne] at hstep
    simp only [State.step, Bool.false_or] at hstep
    split_ifs at hstep with hsecond
    obtain ⟨haccepts, rfl⟩ := State.begin_eq_ok hstep
    exact Or.inr ⟨false, name, args, rfl, haccepts, hnext⟩

/-- Arguments without a dash in front all go to the command that is open. -/
theorem readFrom_ownArgs {draft : Draft} (hsound : draft.IsSound) (hopen : draft.hasOpen = true)
    {args : List String} (hargs : ∀ arg ∈ args, startsWithDash arg = false) (rest : List String) :
    readFrom library policy { draft := draft } (args ++ rest) =
      readFrom library policy { draft := draft.addArgs args } rest := by
  induction args generalizing draft with
  | nil => simp
  | cons arg args ih =>
    have hstep : State.step library policy { draft := draft } (Argument.ofString arg) =
        .ok { draft := draft.addArgs [arg] } := by
      rw [Argument.ofString_bare (hargs arg List.mem_cons_self)]
      exact State.take_of_hasOpen hsound hopen arg
    rw [List.cons_append, readFrom_of_step hstep, Draft.addArgs_cons draft arg args]
    exact ih (hsound.addArgs _) hopen fun other hother ↦ hargs other (List.mem_cons_of_mem _ hother)

/-- In front of all commands an argument without a dash names a script, whose contribution comes
next. -/
theorem readFrom_script (commands : List Command) {name : String}
    (hname : startsWithDash name = false) (rest : List String) :
    readFrom library policy { draft := .continuing commands } (name :: rest) =
      library.load policy name >>= fun script ↦
        readFrom library policy { draft := .continuing (commands ++ script.contribution) }
          rest := by
  have hstep : State.step library policy { draft := .continuing commands }
      (Argument.ofString name) =
      (library.load policy name).map fun script ↦
        { draft := .continuing (commands ++ script.contribution) } := by
    rw [Argument.ofString_bare hname]
    exact @State.take_of_not_hasOpen library policy { draft := .continuing commands }
      (Draft.isSound_continuing commands) rfl name
  rw [readFrom_cons, hstep]
  cases library.load policy name <;> rfl

end Reading

/-! ### Where scripts can stand -/

/-- Whether a dash has been read: a command is open, or a name is awaited. -/
def State.isPastScripts (state : State) : Bool := state.draft.hasOpen || state.awaitsName

section Libraries

variable (library other : ScriptLibrary) {policy : NamePolicy}

/-- Past the scripts, and at a dash, no step consults the library. -/
theorem step_eq_of_isPastScripts {state : State} {arg : String} (hsound : state.draft.IsSound)
    (h : state.isPastScripts = true ∨ startsWithDash arg = true) :
    state.step library policy (Argument.ofString arg) =
      state.step other policy (Argument.ofString arg) := by
  by_cases harg : startsWithDash arg = true
  · rcases Argument.eq_dash_or_dashed harg with rfl | ⟨name, hne, rfl⟩
    · rfl
    · rw [Argument.ofString_dashed hne]
      rfl
  · have hpast : state.isPastScripts = true := h.resolve_right harg
    rw [Argument.ofString_bare (Bool.eq_false_iff.mpr harg)]
    simp only [State.step]
    split_ifs with hstate
    · rfl
    · have hopen : state.draft.hasOpen = true := by
        simpa [State.isPastScripts, hstate] using hpast
      rw [State.take_of_hasOpen hsound hopen, State.take_of_hasOpen hsound hopen]

variable {library} in
/-- A dash leads past the scripts, and no step leads back. -/
theorem isPastScripts_of_step {state next : State} {arg : String} (hsound : state.draft.IsSound)
    (h : state.isPastScripts = true ∨ startsWithDash arg = true)
    (hstep : state.step library policy (Argument.ofString arg) = .ok next) :
    next.isPastScripts = true := by
  by_cases harg : startsWithDash arg = true
  · rcases Argument.eq_dash_or_dashed harg with rfl | ⟨name, hne, rfl⟩
    · change state.step library policy .dash = .ok next at hstep
      simp only [State.step] at hstep
      split_ifs at hstep with hstate
      obtain rfl := Except.ok.inj hstep
      simp [State.isPastScripts]
    · rw [Argument.ofString_dashed hne] at hstep
      simp only [State.step] at hstep
      split_ifs at hstep with hstate
      obtain ⟨-, rfl⟩ := State.begin_eq_ok hstep
      rfl
  · have hpast : state.isPastScripts = true := h.resolve_right harg
    rw [Argument.ofString_bare (Bool.eq_false_iff.mpr harg)] at hstep
    simp only [State.step] at hstep
    split_ifs at hstep with hstate
    · obtain ⟨-, rfl⟩ := State.begin_eq_ok hstep
      rfl
    · have hopen : state.draft.hasOpen = true := by
        simpa [State.isPastScripts, hstate] using hpast
      rw [State.take_of_hasOpen hsound hopen] at hstep
      obtain rfl := Except.ok.inj hstep
      simp [State.isPastScripts, hopen]

/-- Past the scripts, and from a dash on, no reading consults the library. -/
theorem readFrom_eq_of_isPastScripts {state : State} {args : List String}
    (hsound : state.draft.IsSound)
    (h : state.isPastScripts = true ∨ ∃ arg ∈ args.head?, startsWithDash arg = true) :
    readFrom library policy state args = readFrom other policy state args := by
  induction args generalizing state with
  | nil => rfl
  | cons arg args ih =>
    have harg : state.isPastScripts = true ∨ startsWithDash arg = true := by simpa using h
    rw [readFrom_cons, readFrom_cons, step_eq_of_isPastScripts library other hsound harg]
    cases hstep : state.step other policy (Argument.ofString arg) with
    | error failure => rfl
    | ok next =>
      exact ih (isSound_of_step hsound hstep) (Or.inl (isPastScripts_of_step hsound harg hstep))

end Libraries

end Arguments

end CommandScript
