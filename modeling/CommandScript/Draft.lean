import CommandScript.Command
/-!
# A list of commands under construction

Commands are only ever added at the end. At most one of them is open and takes arguments: the one
begun last, also when finished commands have been spliced in behind it. A draft knows it by its
place in the list. A place out of the list would take no argument, but no operation leads to one:
each keeps the open command in the list (`IsSound`).
-/

set_option autoImplicit false
set_option relaxedAutoImplicit false

namespace CommandScript

/-- The commands, and the place of the open one among them. -/
structure Draft where
  commands : List Command := []
  current : Option Nat := none
  deriving DecidableEq, Repr

namespace Draft

/-- A draft that goes on from a list and has none of its commands open. -/
def continuing (commands : List Command) : Draft := { commands }

def hasOpen (draft : Draft) : Bool := draft.current.isSome

/-- Adds a command without arguments and opens it. -/
def begin (draft : Draft) (name : String) : Draft where
  commands := draft.commands ++ [{ name, args := [] }]
  current := some draft.commands.length

/-- Gives the open command an argument, if there is one and the list has it. -/
def addArg? (draft : Draft) (arg : String) : Option Draft := do
  let index ← draft.current
  let command ← draft.commands[index]?
  return { draft with commands := draft.commands.set index (command.addArg arg) }

/-- Adds finished commands; the open command stays open. -/
def splice (draft : Draft) (commands : List Command) : Draft :=
  { draft with commands := draft.commands ++ commands }

@[simp]
theorem commands_continuing (commands : List Command) : (continuing commands).commands = commands :=
  rfl

@[simp]
theorem commands_begin (draft : Draft) (name : String) :
    (draft.begin name).commands = draft.commands ++ [{ name, args := [] }] :=
  rfl

@[simp]
theorem commands_splice (draft : Draft) (commands : List Command) :
    (draft.splice commands).commands = draft.commands ++ commands :=
  rfl

@[simp]
theorem hasOpen_begin (draft : Draft) (name : String) : (draft.begin name).hasOpen = true :=
  rfl

/-! ### The open command is in the list -/

/-- The list has the open command. -/
def IsSound (draft : Draft) : Prop := ∀ index ∈ draft.current, index < draft.commands.length

theorem isSound_continuing (commands : List Command) : (continuing commands).IsSound := by
  intro index hindex
  cases hindex

theorem isSound_begin (draft : Draft) (name : String) : (draft.begin name).IsSound := by
  intro index hindex
  obtain rfl := Option.some.inj hindex
  simp

variable {draft next : Draft} {arg : String}

theorem IsSound.splice (h : draft.IsSound) (commands : List Command) :
    (draft.splice commands).IsSound := by
  intro index hindex
  rw [commands_splice, List.length_append]
  exact Nat.lt_add_right _ (h index hindex)

/-- Where an argument was taken, the open command is the same, and all commands are there. -/
theorem addArg?_keeps (h : draft.addArg? arg = some next) :
    next.current = draft.current ∧ next.commands.length = draft.commands.length := by
  obtain ⟨index, -, hrest⟩ := Option.bind_eq_some_iff.mp h
  obtain ⟨command, -, hnext⟩ := Option.bind_eq_some_iff.mp hrest
  obtain rfl := Option.some.inj hnext
  exact ⟨rfl, List.length_set⟩

theorem IsSound.addArg? (h : draft.IsSound) (hnext : draft.addArg? arg = some next) :
    next.IsSound := by
  obtain ⟨hcurrent, hlength⟩ := addArg?_keeps hnext
  intro index hindex
  rw [hlength]
  exact h index (hcurrent ▸ hindex)

/-- An argument is refused exactly if no command is open. -/
theorem IsSound.addArg?_eq_none_iff (h : draft.IsSound) (arg : String) :
    draft.addArg? arg = none ↔ draft.hasOpen = false := by
  rw [Draft.addArg?, hasOpen]
  cases hcurrent : draft.current with
  | none => simp
  | some index => simp [List.getElem?_eq_getElem (h index hcurrent)]

end Draft

end CommandScript
