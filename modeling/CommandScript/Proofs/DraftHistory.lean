import CommandScript.Proofs.ArgumentReading
import Mathlib.Data.List.Induction
/-!
# Histories of a list under construction

Drafts follow one another over one list, and each is begun on, added to and spliced into in any
order. As long as the open command is in the list, what a step does is told by the list and the
place of that command alone (`step_effect`): a command is put at the end, or the one at the place
gets an argument. Every step keeps the open command in the list, so a whole history does
(`isSound_run`). Commands stay where they are under the names that they have, and only gain
arguments (`Keeps`). The place is that of the command which was begun last on the present draft,
whatever has been spliced in since (`current_run_eq_some_iff`), and there is one as soon as a
command was begun on it (`run_grows_open_command`).
-/

set_option autoImplicit false
set_option relaxedAutoImplicit false

namespace CommandScript

namespace Draft

/-! ### Steps -/

/-- A step in the history of a list: a new draft goes on from it, a command is begun on the present
draft, also with arguments that it is given at once, an argument is offered to the open command,
commands are spliced in, or it is asked whether a command is open. -/
inductive Step
  | renew
  | begin (name : String)
  | beginWith (name : String) (args : List String)
  | addArg (arg : String)
  | splice (commands : List Command)
  | ask

/-- The draft after a step. An argument that no command takes changes nothing. -/
def after (draft : Draft) : Step → Draft
  | .renew => continuing draft.commands
  | .begin name => draft.begin name
  | .beginWith name args => (draft.begin name).addArgs args
  | .addArg arg => (draft.addArg? arg).getD draft
  | .splice commands => draft.splice commands
  | .ask => draft

/-- The draft after some steps, the first of them first. -/
def run (draft : Draft) (steps : List Step) : Draft := steps.foldl after draft

/-- What a step does to the list and to the place of the open command. An argument is taken exactly
if a command is open, and then put behind the arguments of the command at that place. -/
def Effect (draft next : Draft) : Step → Prop
  | .renew => next.commands = draft.commands ∧ next.current = none
  | .begin name =>
    next.commands = draft.commands ++ [{ name, args := [] }] ∧
      next.current = some draft.commands.length
  | .beginWith name args =>
    next.commands = draft.commands ++ [{ name, args }] ∧ next.current = some draft.commands.length
  | .addArg arg =>
    (draft.addArg? arg).isSome = draft.hasOpen ∧ next.current = draft.current ∧
      (draft.hasOpen = false → next.commands = draft.commands) ∧
        ∀ index, draft.current = some index →
          ∃ command, draft.commands[index]? = some command ∧
            next.commands =
              draft.commands.set index { command with args := command.args ++ [arg] }
  | .splice commands =>
    next.commands = draft.commands ++ commands ∧ next.current = draft.current
  | .ask => next = draft

section Stepping

variable {draft : Draft}

theorem step_effect (h : draft.IsSound) (step : Step) : Effect draft (draft.after step) step := by
  cases step with
  | renew => exact ⟨rfl, rfl⟩
  | begin name => exact ⟨rfl, rfl⟩
  | beginWith name args => exact ⟨commands_addArgs_begin draft name args, rfl⟩
  | addArg arg =>
    dsimp only [Effect, after, hasOpen, addArg?]
    cases hcurrent : draft.current with
    | none => exact ⟨rfl, hcurrent, fun _ ↦ rfl, fun index ↦ (nomatch ·)⟩
    | some place =>
      obtain ⟨command, hcommand⟩ : ∃ command, draft.commands[place]? = some command :=
        ⟨_, List.getElem?_eq_getElem (h place hcurrent)⟩
      simp only [Option.bind_eq_bind, Option.bind_some, hcommand]
      refine ⟨rfl, rfl, (nomatch ·), fun index hindex ↦ ?_⟩
      obtain rfl := Option.some.inj hindex
      exact ⟨_, hcommand, rfl⟩
  | splice commands => exact ⟨rfl, rfl⟩
  | ask => exact rfl

/-- A step keeps the open command in the list. -/
theorem IsSound.after (h : draft.IsSound) (step : Step) : (draft.after step).IsSound := by
  cases step with
  | renew => exact isSound_continuing draft.commands
  | begin name => exact isSound_begin draft name
  | beginWith name args => exact (isSound_begin draft name).addArgs args
  | addArg arg =>
    cases hnext : draft.addArg? arg with
    | none => simpa [Draft.after, hnext] using h
    | some next => simpa [Draft.after, hnext] using h.addArg? hnext
  | splice commands => exact h.splice commands
  | ask => exact h

/-- So does a history. -/
theorem IsSound.run (h : draft.IsSound) (steps : List Step) : (draft.run steps).IsSound := by
  induction steps generalizing draft with
  | nil => exact h
  | cons step steps ih => exact ih (h.after step)

/-- The open command is in the list, whatever history led to it. -/
theorem isSound_run (commands : List Command) (steps : List Step) :
    ((continuing commands).run steps).IsSound :=
  (isSound_continuing commands).run steps

end Stepping

/-! ### What a history keeps -/

/-- Every command of the first list stands in the second at the same place, under the same name and
with its arguments in front. -/
def Keeps (before later : List Command) : Prop :=
  ∀ (index : Nat) (command : Command), before[index]? = some command →
    ∃ grown, later[index]? = some grown ∧ grown.name = command.name ∧ command.args <+: grown.args

section Keeping

variable {first second third : List Command}

theorem keeps_refl (commands : List Command) : Keeps commands commands :=
  fun _ command h ↦ ⟨command, h, rfl, List.prefix_refl _⟩

theorem Keeps.trans (h : Keeps first second) (hlater : Keeps second third) : Keeps first third := by
  intro index command hcommand
  obtain ⟨grown, hgrown, hname, hargs⟩ := h index command hcommand
  obtain ⟨final, hfinal, hfinalName, hfinalArgs⟩ := hlater index grown hgrown
  exact ⟨final, hfinal, hfinalName.trans hname, hargs.trans hfinalArgs⟩

theorem keeps_append (commands more : List Command) : Keeps commands (commands ++ more) := by
  intro index command hcommand
  have hlt : index < commands.length := (List.getElem?_eq_some_iff.mp hcommand).1
  exact ⟨command, by rw [List.getElem?_append_left hlt, hcommand], rfl, List.prefix_refl _⟩

theorem keeps_set {commands : List Command} {place : Nat} {command : Command}
    (hcommand : commands[place]? = some command) (args : List String) :
    Keeps commands (commands.set place { command with args := command.args ++ args }) := by
  intro index other hother
  by_cases hplace : place = index
  · subst hplace
    obtain rfl := Option.some.inj (hcommand.symm.trans hother)
    have hlt : place < commands.length := (List.getElem?_eq_some_iff.mp hcommand).1
    exact ⟨_, List.getElem?_set_self hlt, rfl, List.prefix_append _ _⟩
  · exact ⟨other, (List.getElem?_set_ne hplace).trans hother, rfl, List.prefix_refl _⟩

/-- A step keeps all commands. -/
theorem keeps_after {draft : Draft} (h : draft.IsSound) (step : Step) :
    Keeps draft.commands (draft.after step).commands := by
  have heffect := step_effect h step
  cases step with
  | renew | ask => exact keeps_refl _
  | begin name | beginWith name args | splice commands =>
    rw [heffect.1]
    exact keeps_append _ _
  | addArg arg =>
    obtain ⟨-, -, hclosed, hopen⟩ := heffect
    cases hcurrent : draft.current with
    | none =>
      rw [hclosed (by rw [hasOpen, hcurrent]; rfl)]
      exact keeps_refl _
    | some place =>
      obtain ⟨command, hcommand, hnext⟩ := hopen place hcurrent
      rw [hnext]
      exact keeps_set hcommand [arg]

/-- A history keeps all commands. -/
theorem keeps_run {draft : Draft} (h : draft.IsSound) (steps : List Step) :
    Keeps draft.commands (draft.run steps).commands := by
  induction steps generalizing draft with
  | nil => exact keeps_refl _
  | cons step steps ih => exact (keeps_after h step).trans (ih (h.after step))

end Keeping

/-! ### Which command is open -/

/-- Whether a step begins a command. -/
def Step.Begins : Step → Prop
  | .begin _ | .beginWith _ _ => True
  | _ => False

/-- A command was begun on the present draft. -/
def HasBegun (steps : List Step) : Prop :=
  ∃ earlier step later, steps = earlier ++ step :: later ∧ step.Begins ∧ .renew ∉ later

/-- The command that was begun last on the present draft was put at a place: that behind all
commands at the time, in a history that goes on from some commands. -/
def IsLastBegun (commands : List Command) (steps : List Step) (index : Nat) : Prop :=
  ∃ earlier step later, steps = earlier ++ step :: later ∧ step.Begins ∧
    (∀ other ∈ later, ¬ other.Begins ∧ other ≠ .renew) ∧
      index = ((continuing commands).run earlier).commands.length

section Histories

variable {commands : List Command} {steps : List Step} {step : Step} {index : Nat}

theorem run_concat (draft : Draft) (steps : List Step) (step : Step) :
    draft.run (steps ++ [step]) = (draft.run steps).after step := by
  unfold run
  rw [List.foldl_append]
  rfl

/-- Where a history of one more step can be cut: in front of this step, or before. -/
theorem concat_eq_append_cons_iff {last : Step} {earlier later : List Step} :
    steps ++ [last] = earlier ++ step :: later ↔
      (steps = earlier ∧ last = step ∧ later = []) ∨
        ∃ between, later = between ++ [last] ∧ steps = earlier ++ step :: between := by
  constructor
  · intro h
    rcases List.eq_nil_or_concat later with rfl | ⟨between, final, rfl⟩
    · obtain ⟨hsteps, hlast⟩ := List.append_inj' h rfl
      exact .inl ⟨hsteps, List.singleton_inj.mp hlast, rfl⟩
    · rw [List.concat_eq_append, ← List.cons_append, ← List.append_assoc] at h
      obtain ⟨hsteps, hlast⟩ := List.append_inj' h rfl
      exact .inr ⟨between, by rw [List.concat_eq_append, hlast], hsteps⟩
  · rintro (⟨rfl, rfl, rfl⟩ | ⟨between, rfl, rfl⟩)
    · rfl
    · rw [List.append_assoc, List.cons_append]

theorem hasBegun_concat_iff :
    HasBegun (steps ++ [step]) ↔ step.Begins ∨ step ≠ .renew ∧ HasBegun steps := by
  constructor
  · rintro ⟨earlier, first, later, hcut, hbegins, hlater⟩
    obtain ⟨-, rfl, -⟩ | ⟨between, rfl, rfl⟩ := concat_eq_append_cons_iff.mp hcut
    · exact .inl hbegins
    · rw [List.mem_append, List.mem_singleton, not_or] at hlater
      exact .inr ⟨Ne.symm hlater.2, earlier, first, between, rfl, hbegins, hlater.1⟩
  · rintro (hbegins | ⟨hrenew, earlier, first, later, rfl, hbegins, hlater⟩)
    · exact ⟨steps, step, [], rfl, hbegins, List.not_mem_nil⟩
    · refine ⟨earlier, first, later ++ [step], List.append_assoc .., hbegins, ?_⟩
      rw [List.mem_append, List.mem_singleton, not_or]
      exact ⟨hlater, hrenew.symm⟩

theorem isLastBegun_concat_iff :
    IsLastBegun commands (steps ++ [step]) index ↔
      (step.Begins ∧ index = ((continuing commands).run steps).commands.length) ∨
        (¬ step.Begins ∧ step ≠ .renew ∧ IsLastBegun commands steps index) := by
  constructor
  · rintro ⟨earlier, first, later, hcut, hbegins, hlater, hindex⟩
    obtain ⟨rfl, rfl, -⟩ | ⟨between, rfl, rfl⟩ := concat_eq_append_cons_iff.mp hcut
    · exact .inl ⟨hbegins, hindex⟩
    · rw [List.forall_mem_append, List.forall_mem_singleton] at hlater
      exact .inr ⟨hlater.2.1, hlater.2.2, earlier, first, between, rfl, hbegins, hlater.1, hindex⟩
  · rintro (⟨hbegins, hindex⟩ |
      ⟨hstep, hrenew, earlier, first, later, rfl, hbegins, hlater, hindex⟩)
    · exact ⟨steps, step, [], rfl, hbegins, List.forall_mem_nil _, hindex⟩
    · refine ⟨earlier, first, later ++ [step], List.append_assoc .., hbegins, ?_, hindex⟩
      rw [List.forall_mem_append, List.forall_mem_singleton]
      exact ⟨hlater, hstep, hrenew⟩

theorem current_after_of_begins (draft : Draft) (h : step.Begins) :
    (draft.after step).current = some draft.commands.length := by
  cases step with
  | begin name | beginWith name args => rfl
  | renew | addArg arg | splice commands | ask => exact h.elim

theorem current_after_of_not_begins (draft : Draft) (h : ¬ step.Begins) (hrenew : step ≠ .renew) :
    (draft.after step).current = draft.current := by
  cases step with
  | begin name | beginWith name args => exact absurd trivial h
  | renew => exact absurd rfl hrenew
  | addArg arg =>
    dsimp only [after]
    cases hnext : draft.addArg? arg with
    | none => rfl
    | some next => exact (addArg?_keeps hnext).1
  | splice commands | ask => rfl

theorem not_isLastBegun_nil : ¬ IsLastBegun commands [] index := by
  rintro ⟨earlier, step, later, hcut, -⟩
  exact List.append_ne_nil_of_right_ne_nil _ (List.cons_ne_nil _ _) hcut.symm

theorem not_hasBegun_nil : ¬ HasBegun [] := by
  rintro ⟨earlier, step, later, hcut, -⟩
  exact List.append_ne_nil_of_right_ne_nil _ (List.cons_ne_nil _ _) hcut.symm

/-- The place of the open command is that of the command begun last on the present draft. -/
theorem current_run_eq_some_iff :
    ((continuing commands).run steps).current = some index ↔
      IsLastBegun commands steps index := by
  -- On the last step: a command begun, a new draft, or neither decides which one is open.
  induction steps using List.reverseRec with
  | nil => exact iff_of_false (Option.some_ne_none index).symm not_isLastBegun_nil
  | append_singleton steps step ih =>
    rw [run_concat, isLastBegun_concat_iff, ← ih]
    by_cases hbegins : step.Begins
    · rw [current_after_of_begins _ hbegins, Option.some_inj, eq_comm]
      simp only [hbegins, true_and, not_true, false_and, or_false]
    · by_cases hrenew : step = .renew
      · subst hrenew
        refine iff_of_false (Option.some_ne_none index).symm ?_
        simp only [hbegins, false_and, ne_eq, not_true, and_false, or_false, not_false_eq_true]
      · rw [current_after_of_not_begins _ hbegins hrenew]
        simp only [hbegins, false_and, false_or, not_false_eq_true, true_and, ne_eq, hrenew]

theorem exists_isLastBegun_iff :
    (∃ index, IsLastBegun commands steps index) ↔ HasBegun steps := by
  induction steps using List.reverseRec with
  | nil => exact iff_of_false (fun ⟨_, h⟩ ↦ not_isLastBegun_nil h) not_hasBegun_nil
  | append_singleton steps step ih =>
    simp only [isLastBegun_concat_iff, hasBegun_concat_iff, exists_or, exists_and_left, exists_eq,
      and_true, ih]
    by_cases hbegins : step.Begins
    · simp only [hbegins, true_or]
    · simp only [hbegins, not_false_eq_true, true_and]

/-- A command is open as soon as one was begun on the present draft. -/
theorem hasOpen_run_iff : ((continuing commands).run steps).hasOpen ↔ HasBegun steps := by
  rw [hasOpen, Option.isSome_iff_exists, ← exists_isLastBegun_iff]
  exact exists_congr fun index ↦ current_run_eq_some_iff

/-- A history of a list grows the open command alone. Each step has its effect on the list and on
the place of the open command, and keeps all commands that some steps led to, with their names; a
command is open exactly if one was begun on the present draft, only then an argument is taken, and
its place is that of the command begun last on it, always one in the list. -/
theorem run_grows_open_command (commands : List Command) (steps : List Step) (step : Step) :
    let draft := (continuing commands).run steps
    Effect draft (draft.after step) step ∧ Keeps commands draft.commands ∧
      Keeps draft.commands (draft.after step).commands ∧
        (draft.hasOpen ↔ HasBegun steps) ∧
          ∀ index, (draft.current = some index ↔ IsLastBegun commands steps index) ∧
            (draft.current = some index → index < draft.commands.length) := by
  intro draft
  have hsound : draft.IsSound := isSound_run commands steps
  exact ⟨step_effect hsound step, keeps_run (isSound_continuing commands) steps,
    keeps_after hsound step, hasOpen_run_iff, fun index ↦ ⟨current_run_eq_some_iff, hsound index⟩⟩

/-- An argument goes past the commands spliced in. -/
example :
    ((continuing []).run [.begin "load", .splice [⟨"go", []⟩], .addArg "a"]).commands =
      [⟨"load", ["a"]⟩, ⟨"go", []⟩] :=
  rfl

end Histories

end Draft

end CommandScript
