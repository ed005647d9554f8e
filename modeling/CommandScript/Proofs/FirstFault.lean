import CommandScript.Proofs.ArgumentGrammar
/-!
# The first fault of an argument list

A list that cannot be read has a first argument that is at fault: up to there it can be read, and
what stands behind it no longer counts. Which failure it is depends on that argument and on those
before it. What they leave to the loop is known from themselves (`State.Follows`): a name is awaited
behind a lone dash, and scripts are over from the first dash on. So a fault is told without the loop
(`Faults`): a dash too many comes first, then a name that the policy refuses, and last a script that
cannot be loaded. A step fails with these failures and no others (`step_eq_error_iff`), and so does
a reading (`parse_eq_error_iff`). The longest part that can be read and the argument behind it are
thus all that a failure depends on (`parse_fails_at_first_fault`).
-/

set_option autoImplicit false
set_option relaxedAutoImplicit false

namespace CommandScript

/-! ### Scripts that cannot be loaded -/

section Scripts

variable {library : ScriptLibrary} {policy : NamePolicy} {name : String} {failure : Failure}

theorem Script.parseAs_eq_error_iff {content : Bytes} :
    Script.parseAs policy name content = .error failure ↔
      ∃ issue, Script.parse policy content = .error issue ∧ failure = .badLine name issue := by
  rw [Script.parseAs]
  cases Script.parse policy content with
  | ok commands => simp [Except.mapError]
  | error issue => simp [Except.mapError, eq_comm]

/-- A script fails to load for want of a file, or at a line of the file. -/
theorem ScriptLibrary.load_eq_error_iff : library.load policy name = .error failure ↔
    library name = none ∧ failure = .unreadable name ∨
      ∃ file issue, library name = some file ∧ Script.parse policy file.content = .error issue ∧
        failure = .badLine name issue := by
  rw [load]
  cases hfile : library name with
  | none => simp [eq_comm]
  | some file =>
    simp only [map_eq_error_iff, Script.parseAs_eq_error_iff, Option.some.injEq, reduceCtorEq,
      false_and, false_or, ↓existsAndEq, true_and]

/-- The failure cites the script by the name that was given. -/
theorem ScriptLibrary.script?_of_load_eq_error (h : library.load policy name = .error failure) :
    failure.script? = some name := by
  rcases load_eq_error_iff.mp h with ⟨-, rfl⟩ | ⟨file, issue, -, -, rfl⟩
  · rfl
  · rfl

end Scripts

namespace Arguments

/-! ### Faults -/

/-- Whether an argument holds a dash too many, behind those before it. -/
def IsDashSuccession (before : List String) (arg : String) : Prop :=
  ['-', '-'] <+: arg.toList ∨ before.getLast? = some "-" ∧ startsWithDash arg = true

/-- The name that an argument gives: all of it behind a lone dash, or what follows its own dash. -/
def GivesName (before : List String) (arg name : String) : Prop :=
  before.getLast? = some "-" ∧ name = arg ∨ name ≠ "" ∧ arg = "-" ++ name

/-- What is wrong with an argument behind others that can be read. -/
inductive Faults (library : ScriptLibrary) (policy : NamePolicy) (before : List String)
    (arg : String) : Failure → Prop
  | dashSuccession (hdash : IsDashSuccession before arg) :
    Faults library policy before arg .dashSuccession
  | invalidName {name : String} (hdash : ¬ IsDashSuccession before arg)
    (hname : GivesName before arg name) (hrefused : policy.accepts name = false) :
    Faults library policy before arg .invalidName
  | script {failure : Failure} (hbefore : ∀ other ∈ before, startsWithDash other = false)
    (harg : startsWithDash arg = false) (hload : library.load policy arg = .error failure) :
    Faults library policy before arg failure

section Shapes

variable {library : ScriptLibrary} {policy : NamePolicy} {before : List String} {arg name : String}
  {failure : Failure}

theorem startsWithDash_dash_append (name : String) : startsWithDash ("-" ++ name) = true := by
  simp [startsWithDash]

theorem dashes_prefix_iff : ['-', '-'] <+: ("-" ++ name).toList ↔ startsWithDash name = true := by
  rw [startsWithDash, beq_iff_eq, String.toList_append]
  change ['-', '-'] <+: '-' :: name.toList ↔ _
  rw [List.prefix_cons_inj]
  cases name.toList with
  | nil => simp
  | cons c rest => simp [eq_comm]

theorem startsWithDash_of_dashes (h : ['-', '-'] <+: arg.toList) : startsWithDash arg = true := by
  obtain ⟨rest, hrest⟩ := h
  rw [startsWithDash, ← hrest]
  rfl

theorem not_isDashSuccession (harg : startsWithDash arg = false) :
    ¬ IsDashSuccession before arg := by
  rintro (hdashes | ⟨-, hstarts⟩)
  · rw [startsWithDash_of_dashes hdashes] at harg
    cases harg
  · rw [harg] at hstarts
    cases hstarts

theorem isDashSuccession_dash_append_iff : IsDashSuccession before ("-" ++ name) ↔
    before.getLast? = some "-" ∨ startsWithDash name = true := by
  rw [IsDashSuccession, dashes_prefix_iff, startsWithDash_dash_append, or_comm, eq_self_iff_true,
    and_true]

theorem not_givesName (hbefore : ∀ other ∈ before, startsWithDash other = false)
    (harg : startsWithDash arg = false) : ¬ GivesName before arg name := by
  rintro (⟨hlast, -⟩ | ⟨-, rfl⟩)
  · exact absurd (hbefore "-" (List.mem_of_getLast? hlast)) (by decide)
  · rw [startsWithDash_dash_append] at harg
    cases harg

/-- A lone dash is at fault only behind another one. -/
theorem faults_dash_iff : Faults library policy before "-" failure ↔
    before.getLast? = some "-" ∧ failure = .dashSuccession := by
  have hdash : IsDashSuccession before "-" ↔ before.getLast? = some "-" := by
    have hstarts : startsWithDash "-" = true := by decide
    simp [IsDashSuccession, hstarts]
  constructor
  · intro h
    cases h with
    | dashSuccession h => exact ⟨hdash.mp h, rfl⟩
    | invalidName h hname =>
      rcases hname with ⟨hlast, -⟩ | ⟨hne, heq⟩
      · exact absurd (hdash.mpr hlast) h
      · exact absurd (by simpa using congrArg String.toList heq) hne
    | script _ harg => exact absurd harg (by decide)
  · rintro ⟨hlast, rfl⟩
    exact .dashSuccession (hdash.mpr hlast)

/-- A dash in front of a name is one too many behind a lone dash and in front of another dash. -/
theorem faults_dashed_iff (hne : name ≠ "") : Faults library policy before ("-" ++ name) failure ↔
    (before.getLast? = some "-" ∨ startsWithDash name = true) ∧ failure = .dashSuccession ∨
      ¬ (before.getLast? = some "-" ∨ startsWithDash name = true) ∧
        policy.accepts name = false ∧ failure = .invalidName := by
  have hdash := @isDashSuccession_dash_append_iff before name
  constructor
  · intro h
    cases h with
    | dashSuccession h => exact Or.inl ⟨hdash.mp h, rfl⟩
    | invalidName h hname hrefused =>
      rw [hdash] at h
      rcases hname with ⟨hlast, -⟩ | ⟨-, heq⟩
      · exact absurd (Or.inl hlast) h
      · obtain rfl : name = _ := String.toList_injective (by simpa using congrArg String.toList heq)
        exact Or.inr ⟨h, hrefused, rfl⟩
    | script _ harg =>
      rw [startsWithDash_dash_append] at harg
      cases harg
  · rintro (⟨h, rfl⟩ | ⟨h, hrefused, rfl⟩)
    · exact .dashSuccession (hdash.mpr h)
    · exact .invalidName (hdash.not.mpr h) (Or.inr ⟨hne, rfl⟩) hrefused

/-- Without a dash an argument is at fault as a name behind a lone dash, and as a script in front of
all dashes. -/
theorem faults_bare_iff (harg : startsWithDash arg = false) :
    Faults library policy before arg failure ↔
      before.getLast? = some "-" ∧ policy.accepts arg = false ∧ failure = .invalidName ∨
        (∀ other ∈ before, startsWithDash other = false) ∧
          library.load policy arg = .error failure := by
  constructor
  · intro h
    cases h with
    | dashSuccession hdash => exact absurd hdash (not_isDashSuccession harg)
    | invalidName _ hname hrefused =>
      rcases hname with ⟨hlast, rfl⟩ | ⟨-, rfl⟩
      · exact Or.inl ⟨hlast, hrefused, rfl⟩
      · rw [startsWithDash_dash_append] at harg
        cases harg
    | script hbefore _ hload => exact Or.inr ⟨hbefore, hload⟩
  · rintro (⟨hlast, hrefused, rfl⟩ | ⟨hbefore, hload⟩)
    · exact .invalidName (not_isDashSuccession harg) (Or.inl ⟨hlast, rfl⟩) hrefused
    · exact .script hbefore harg hload

end Shapes

/-! ### One step -/

section Step

variable {library : ScriptLibrary} {policy : NamePolicy} {state next : State}
  {arg name text : String} {failure : Failure}

theorem exists_shape (arg : String) :
    arg = "-" ∨ (∃ name, name ≠ "" ∧ arg = "-" ++ name) ∨ startsWithDash arg = false := by
  cases harg : startsWithDash arg with
  | true => exact (Argument.eq_dash_or_dashed harg).imp_right Or.inl
  | false => exact Or.inr (Or.inr rfl)

theorem State.begin_eq_error_iff : state.begin policy name = .error failure ↔
    policy.accepts name = false ∧ failure = .invalidName := by
  rw [State.begin]
  split_ifs with hname
  · simp [hname]
  · simp [hname, eq_comm]

theorem State.take_eq_error_iff (hsound : state.draft.IsSound) :
    state.take library policy text = .error failure ↔
      state.draft.hasOpen = false ∧ library.load policy text = .error failure := by
  cases hopen : state.draft.hasOpen with
  | true => simp [take_of_hasOpen hsound hopen]
  | false =>
    rw [take_of_not_hasOpen hsound hopen]
    cases library.load policy text <;> simp [Except.map]

/-- Taking a text neither opens a command nor makes the loop await a name. -/
theorem State.flags_of_take (h : state.take library policy text = .ok next) :
    next.awaitsName = state.awaitsName ∧ next.draft.hasOpen = state.draft.hasOpen := by
  rw [State.take] at h
  split at h
  · next draft hdraft =>
    obtain rfl := Except.ok.inj h
    exact ⟨rfl, congrArg Option.isSome (Draft.addArg?_keeps hdraft).1⟩
  · obtain ⟨script, -, hnext⟩ := bind_eq_ok_iff.mp h
    obtain rfl := Except.ok.inj hnext
    exact ⟨rfl, rfl⟩

/-- A name is awaited after a step exactly if the step has read a lone dash. -/
theorem awaitsName_of_step
    (hstep : state.step library policy (Argument.ofString arg) = .ok next) :
    next.awaitsName = true ↔ arg = "-" := by
  rcases exists_shape arg with rfl | ⟨name, hne, rfl⟩ | harg
  · change state.step library policy .dash = .ok next at hstep
    rw [State.step] at hstep
    split_ifs at hstep with hawaits
    obtain rfl := Except.ok.inj hstep
    simp
  · rw [Argument.ofString_dashed hne, State.step] at hstep
    split_ifs at hstep with hdash
    obtain ⟨-, rfl⟩ := State.begin_eq_ok hstep
    have hlone : "-" ++ name ≠ "-" := fun h ↦ hne (by simpa using congrArg String.toList h)
    simp only [hlone, Bool.false_eq_true]
  · have hlone : arg ≠ "-" := by
      rintro rfl
      cases harg
    rw [Argument.ofString_bare harg, State.step] at hstep
    split_ifs at hstep with hawaits
    · obtain ⟨-, rfl⟩ := State.begin_eq_ok hstep
      simp only [hlone, Bool.false_eq_true]
    · rw [(State.flags_of_take hstep).1]
      simp only [hawaits, hlone, Bool.false_eq_true]

/-- Scripts are over after a step exactly if they were over before or it has read a dash. -/
theorem isPastScripts_step_iff (hsound : state.draft.IsSound)
    (hstep : state.step library policy (Argument.ofString arg) = .ok next) :
    next.isPastScripts = true ↔ state.isPastScripts = true ∨ startsWithDash arg = true := by
  refine ⟨fun hnext ↦ ?_, fun h ↦ isPastScripts_of_step hsound h hstep⟩
  by_contra hneither
  obtain ⟨hstate, harg⟩ := not_or.mp hneither
  obtain ⟨hopen, hawaits⟩ : state.draft.hasOpen = false ∧ state.awaitsName = false := by
    simpa [State.isPastScripts] using hstate
  rw [Argument.ofString_bare (Bool.eq_false_iff.mpr harg), State.step, if_neg (by simp [hawaits])]
    at hstep
  obtain ⟨hnextAwaits, hnextOpen⟩ := State.flags_of_take hstep
  rw [State.isPastScripts, hnextAwaits, hnextOpen, hopen, hawaits] at hnext
  cases hnext

end Step

/-! ### What the arguments before leave -/

/-- The loop stands where some arguments have left it: the command that is open is in the list, a
name is awaited behind a lone dash, and scripts are over from the first dash on. -/
structure State.Follows (before : List String) (state : State) : Prop where
  isSound : state.draft.IsSound
  awaitsName_iff : state.awaitsName = true ↔ before.getLast? = some "-"
  isPastScripts_iff : state.isPastScripts = true ↔ ∃ arg ∈ before, startsWithDash arg = true

section Loop

variable {library : ScriptLibrary} {policy : NamePolicy} {state next : State}
  {before args : List String} {arg : String} {failure : Failure}

theorem State.follows_nil : State.Follows [] {} :=
  ⟨Draft.isSound_continuing [], by decide, by decide⟩

theorem State.Follows.bare_iff (h : state.Follows before) :
    (∀ other ∈ before, startsWithDash other = false) ↔ state.isPastScripts = false := by
  rw [← Bool.not_eq_true state.isPastScripts, h.isPastScripts_iff]
  simp

theorem State.Follows.step (h : state.Follows before)
    (hstep : state.step library policy (Argument.ofString arg) = .ok next) :
    next.Follows (before ++ [arg]) where
  isSound := isSound_of_step h.isSound hstep
  awaitsName_iff := by
    rw [awaitsName_of_step hstep, List.getLast?_concat, Option.some_inj]
  isPastScripts_iff := by
    rw [isPastScripts_step_iff h.isSound hstep, h.isPastScripts_iff]
    simp [or_and_right, exists_or]

theorem State.Follows.readFrom (h : state.Follows before)
    (hread : readFrom library policy state args = .ok next) : next.Follows (before ++ args) := by
  induction args generalizing state before with
  | nil =>
    obtain rfl := Except.ok.inj hread
    rwa [List.append_nil]
  | cons arg args ih =>
    obtain ⟨after, hstep, hrest⟩ := step_of_readFrom hread
    rw [← List.singleton_append, ← List.append_assoc]
    exact ih (h.step hstep) hrest

/-- A step fails with the fault of its argument behind those before it. -/
theorem step_eq_error_iff (h : state.Follows before) :
    state.step library policy (Argument.ofString arg) = .error failure ↔
      Faults library policy before arg failure := by
  rcases exists_shape arg with rfl | ⟨name, hne, rfl⟩ | harg
  · rw [faults_dash_iff, ← h.awaitsName_iff]
    change state.step library policy .dash = .error failure ↔ _
    rw [State.step]
    split_ifs with hawaits
    · simp [hawaits, eq_comm]
    · simp [hawaits]
  · rw [faults_dashed_iff hne, ← h.awaitsName_iff, ← Bool.or_eq_true, Argument.ofString_dashed hne,
      State.step]
    split_ifs with hdash
    · simp only [hdash, not_true_eq_false, false_and, or_false, true_and, Except.error.injEq,
        eq_comm]
    · simp only [hdash, State.begin_eq_error_iff, Bool.false_eq_true, false_and, false_or,
        not_false_eq_true, true_and]
  · rw [faults_bare_iff harg, ← h.awaitsName_iff, h.bare_iff, Argument.ofString_bare harg,
      State.step]
    split_ifs with hawaits
    · simp [State.begin_eq_error_iff, State.isPastScripts, hawaits]
    · simp [State.take_eq_error_iff h.isSound, State.isPastScripts, hawaits]

/-- A reading fails at an argument up to which it succeeds. -/
theorem readFrom_eq_error_iff : readFrom library policy state args = .error failure ↔
    ∃ before arg after next, args = before ++ arg :: after ∧
      readFrom library policy state before = .ok next ∧
        next.step library policy (Argument.ofString arg) = .error failure := by
  constructor
  · intro h
    induction args generalizing state with
    | nil => cases h
    | cons arg args ih =>
      cases hstep : state.step library policy (Argument.ofString arg) with
      | error other =>
        rw [readFrom_cons, hstep] at h
        obtain rfl := Except.error.inj h
        exact ⟨[], arg, args, state, rfl, rfl, hstep⟩
      | ok next =>
        rw [readFrom_of_step hstep] at h
        obtain ⟨before, other, after, last, rfl, hbefore, hother⟩ := ih h
        exact ⟨arg :: before, other, after, last, rfl,
          (readFrom_of_step hstep before).trans hbefore, hother⟩
  · rintro ⟨before, arg, after, next, rfl, hbefore, hstep⟩
    rw [readFrom_append, hbefore]
    change readFrom library policy next (arg :: after) = _
    rw [readFrom_cons, hstep]
    rfl

end Loop

/-! ### The first fault -/

section Reading

variable {library : ScriptLibrary} {policy : NamePolicy} {args before after : List String}
  {arg : String} {failure : Failure}

theorem parse_eq_error_iff_readFrom :
    parse library policy args = .error failure ↔
      readFrom library policy {} args = .error failure :=
  map_eq_error_iff

/-- A list fails exactly if some argument is at fault behind others that can be read. -/
theorem parse_eq_error_iff : parse library policy args = .error failure ↔
    ∃ before arg after, args = before ++ arg :: after ∧
      (∃ stream, parse library policy before = .ok stream) ∧
        Faults library policy before arg failure := by
  rw [parse_eq_error_iff_readFrom, readFrom_eq_error_iff]
  constructor
  · rintro ⟨before, arg, after, state, hargs, hread, hstep⟩
    exact ⟨before, arg, after, hargs, ⟨state.result, parse_eq_ok_iff.mpr ⟨state, hread, rfl⟩⟩,
      (step_eq_error_iff (State.follows_nil.readFrom hread)).mp hstep⟩
  · rintro ⟨before, arg, after, hargs, ⟨stream, hparse⟩, hfault⟩
    obtain ⟨state, hread, -⟩ := parse_eq_ok_iff.mp hparse
    exact ⟨before, arg, after, state, hargs, hread,
      (step_eq_error_iff (State.follows_nil.readFrom hread)).mpr hfault⟩

/-- What stands behind a list that fails does not mend it. -/
theorem parse_append_of_eq_error (h : parse library policy before = .error failure)
    (later : List String) : parse library policy (before ++ later) = .error failure := by
  obtain ⟨read, arg, after, rfl, hread, hfault⟩ := parse_eq_error_iff.mp h
  rw [List.append_assoc, List.cons_append]
  exact parse_eq_error_iff.mpr ⟨read, arg, after ++ later, rfl, hread, hfault⟩

theorem exists_parse_eq_error_of_faults (h : Faults library policy before arg failure)
    (after : List String) :
    ∃ other, parse library policy (before ++ arg :: after) = .error other := by
  cases hbefore : parse library policy before with
  | ok stream => exact ⟨failure, parse_eq_error_iff.mpr ⟨before, arg, after, rfl, ⟨_, hbefore⟩, h⟩⟩
  | error other => exact ⟨other, parse_append_of_eq_error hbefore _⟩

/-! ### Which fault it is -/

namespace Faults

theorem eq_dashSuccession_iff (h : Faults library policy before arg failure) :
    failure = .dashSuccession ↔ IsDashSuccession before arg := by
  cases h with
  | dashSuccession hdash => exact ⟨fun _ ↦ hdash, fun _ ↦ rfl⟩
  | invalidName hdash =>
    refine ⟨fun heq ↦ ?_, fun h ↦ absurd h hdash⟩
    cases heq
  | script _ harg hload =>
    refine ⟨fun heq ↦ ?_, fun h ↦ absurd h (not_isDashSuccession harg)⟩
    subst heq
    cases ScriptLibrary.script?_of_load_eq_error hload

theorem eq_invalidName_iff (h : Faults library policy before arg failure)
    (hdash : ¬ IsDashSuccession before arg) :
    failure = .invalidName ↔ ∃ name, GivesName before arg name ∧ policy.accepts name = false := by
  cases h with
  | dashSuccession h => exact absurd h hdash
  | invalidName _ hname hrefused => exact ⟨fun _ ↦ ⟨_, hname, hrefused⟩, fun _ ↦ rfl⟩
  | script hbefore harg hload =>
    refine ⟨fun heq ↦ ?_, fun ⟨name, hname, _⟩ ↦ absurd hname (not_givesName hbefore harg)⟩
    subst heq
    cases ScriptLibrary.script?_of_load_eq_error hload

theorem load_eq_error (h : Faults library policy before arg failure)
    (hdash : ¬ IsDashSuccession before arg)
    (hname : ¬ ∃ name, GivesName before arg name ∧ policy.accepts name = false) :
    (∀ other ∈ before, startsWithDash other = false) ∧ startsWithDash arg = false ∧
      library.load policy arg = .error failure := by
  cases h with
  | dashSuccession h => exact absurd h hdash
  | invalidName _ h hrefused => exact absurd ⟨_, h, hrefused⟩ hname
  | script hbefore harg hload => exact ⟨hbefore, harg, hload⟩

end Faults

/-- A list fails at an argument: up to there it can be read and no further, whatever stands behind
the argument, and the argument and those before it decide on the failure. -/
structure FailsAt (library : ScriptLibrary) (policy : NamePolicy) (args : List String)
    (failure : Failure) (before : List String) (arg : String) (after : List String) : Prop where
  args_eq : args = before ++ arg :: after
  readable : ∃ stream, parse library policy before = .ok stream
  longest : ∀ read, read <+: args → (∃ stream, parse library policy read = .ok stream) →
    read <+: before
  settled : ∀ later, parse library policy (before ++ arg :: later) = .error failure
  dashSuccession_iff : failure = .dashSuccession ↔ IsDashSuccession before arg
  invalidName_iff : ¬ IsDashSuccession before arg →
    (failure = .invalidName ↔ ∃ name, GivesName before arg name ∧ policy.accepts name = false)
  script : ¬ IsDashSuccession before arg →
    (¬ ∃ name, GivesName before arg name ∧ policy.accepts name = false) →
      (∀ other ∈ before, startsWithDash other = false) ∧ startsWithDash arg = false ∧
        library.load policy arg = .error failure ∧ failure.script? = some arg

theorem Faults.failsAt (h : Faults library policy before arg failure)
    (hread : ∃ stream, parse library policy before = .ok stream) (after : List String) :
    FailsAt library policy (before ++ arg :: after) failure before arg after where
  args_eq := rfl
  readable := hread
  longest := by
    rintro read hinitial ⟨stream, hstream⟩
    rcases List.prefix_or_prefix_of_prefix hinitial (List.prefix_append before (arg :: after)) with
      hshorter | ⟨rest, rfl⟩
    · exact hshorter
    · cases rest with
      | nil => simp
      | cons other rest =>
        -- What is read next could only be the argument at fault.
        obtain ⟨rfl, -⟩ :=
          List.cons_prefix_cons.mp ((List.prefix_append_right_inj before).mp hinitial)
        rw [parse_eq_error_iff.mpr ⟨before, other, rest, rfl, hread, h⟩] at hstream
        cases hstream
  settled later := parse_eq_error_iff.mpr ⟨before, arg, later, rfl, hread, h⟩
  dashSuccession_iff := h.eq_dashSuccession_iff
  invalidName_iff := h.eq_invalidName_iff
  script hdash hname := by
    obtain ⟨hbefore, harg, hload⟩ := h.load_eq_error hdash hname
    exact ⟨hbefore, harg, hload, ScriptLibrary.script?_of_load_eq_error hload⟩

end Reading

/-- A list that fails does so at one argument, with the failure that this argument and those before
it decide on. A list with two dashes in a row always fails, be they one argument or two. -/
theorem parse_fails_at_first_fault (library : ScriptLibrary) (policy : NamePolicy)
    (args : List String) :
    (∀ failure, parse library policy args = .error failure →
      ∃ before arg after, FailsAt library policy args failure before arg after) ∧
      ((∃ before after, args = before ++ "-" :: "-" :: after) ∨
          (∃ arg ∈ args, ['-', '-'] <+: arg.toList) →
        ∃ failure, parse library policy args = .error failure) := by
  refine ⟨fun failure h ↦ ?_, ?_⟩
  · obtain ⟨before, arg, after, rfl, hread, hfault⟩ := parse_eq_error_iff.mp h
    exact ⟨before, arg, after, hfault.failsAt hread after⟩
  · rintro (⟨before, after, rfl⟩ | ⟨arg, harg, hdashes⟩)
    · have hdash : IsDashSuccession (before ++ ["-"]) "-" := Or.inr ⟨List.getLast?_concat, rfl⟩
      rw [← List.singleton_append, ← List.append_assoc]
      exact exists_parse_eq_error_of_faults (.dashSuccession hdash) after
    · obtain ⟨before, after, rfl⟩ := List.append_of_mem harg
      exact exists_parse_eq_error_of_faults (.dashSuccession (Or.inl hdashes)) after

/-- Behind a lone dash `-1` is a dash too many before it is a bad name. -/
theorem parse_fails_at_first_fault_go :
    parse (fun _ ↦ none) .strict ["-go", "-", "-1", "--"] = .error .dashSuccession ∧
      ∃ before arg after,
        FailsAt (fun _ ↦ none) .strict ["-go", "-", "-1", "--"] .dashSuccession before arg after :=
  ⟨rfl, (parse_fails_at_first_fault _ _ _).1 .dashSuccession rfl⟩

end Arguments

end CommandScript
