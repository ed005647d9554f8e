import CommandScript.Proofs.ArgumentReading
import CommandScript.Proofs.ScriptText
import Mathlib.Data.List.Forall2
import Mathlib.Data.List.TakeWhile
/-!
# The grammar of argument lists

An argument list is read if and only if it consists of script names, then of command groups, then
possibly of a lone dash, and the stream is what these parts say (`parse_eq_ok_iff_grammar`). A group
is a dash, a name and arguments without a dash in front. `readFrom_groups` reads groups,
`exists_groups_of_readFrom` recovers them from a reading that succeeds: each dash announces a name
or ends the list, and the arguments up to the next dash belong to the command that the name opened.
The library is consulted for names in front of the first dash only (`readFrom_eq_of_scriptNames`).
-/

set_option autoImplicit false
set_option relaxedAutoImplicit false

namespace CommandScript

namespace Arguments

/-- A command as an argument list spells it. -/
structure CommandGroup where
  apart : Bool
  name : String
  args : List String
  deriving DecidableEq, Repr

namespace CommandGroup

/-- The arguments that spell the group: the dash, apart from the name or in front of it, and the
command's own arguments. -/
def spelling (group : CommandGroup) : List String := announce group.apart group.name ++ group.args

/-- The name is one that the policy accepts, and no argument looks like a dash. -/
def IsValid (policy : NamePolicy) (group : CommandGroup) : Prop :=
  policy.accepts group.name = true ∧ ∀ arg ∈ group.args, startsWithDash arg = false

def command (group : CommandGroup) : Command :=
  { name := canonicalName group.name, args := group.args }

end CommandGroup

/-- The arguments that ask for more commands on the standard input, or do not. -/
def stdinRequest (fromStdin : Bool) : List String := if fromStdin then ["-"] else []

section Grammar

variable {library : ScriptLibrary} {policy : NamePolicy}

/-! ### Groups -/

/-- Valid groups add their commands and leave the loop waiting for no name. -/
theorem readFrom_groups {groups : List CommandGroup}
    (hgroups : ∀ group ∈ groups, group.IsValid policy) (draft : Draft) (rest : List String) :
    ∃ later : Draft, later.commands = draft.commands ++ groups.map CommandGroup.command ∧
      readFrom library policy { draft := draft } (groups.flatMap CommandGroup.spelling ++ rest) =
        readFrom library policy { draft := later } rest := by
  induction groups generalizing draft with
  | nil => exact ⟨draft, by simp, rfl⟩
  | cons group groups ih =>
    obtain ⟨hname, hargs⟩ := hgroups group List.mem_cons_self
    obtain ⟨later, hlater, hread⟩ :=
      ih (fun other hother ↦ hgroups other (List.mem_cons_of_mem _ hother))
        ((draft.begin (canonicalName group.name)).addArgs group.args)
    refine ⟨later, ?_, ?_⟩
    · rw [hlater, Draft.commands_addArgs_begin, List.map_cons, CommandGroup.command,
        List.append_assoc, List.singleton_append]
    · rw [List.flatMap_cons, CommandGroup.spelling, List.append_assoc, List.append_assoc,
        readFrom_announce draft hname,
        readFrom_ownArgs (Draft.isSound_begin _ _) (Draft.hasOpen_begin _ _) hargs, hread]

theorem readFrom_stdinRequest (draft : Draft) (fromStdin : Bool) :
    readFrom library policy { draft := draft } (stdinRequest fromStdin) =
      .ok { draft := draft, awaitsName := fromStdin } := by
  cases fromStdin <;> rfl

theorem startsWithDash_of_mem_scriptNames {args : List String} :
    ∀ name ∈ scriptNames args, startsWithDash name = false := by
  intro name hname
  simpa using List.mem_takeWhile_imp hname

theorem startsWithDash_of_head?_dropWhile {args : List String} :
    ∀ arg ∈ (args.dropWhile fun arg ↦ !startsWithDash arg).head?, startsWithDash arg = true := by
  intro arg harg
  have hnot := List.head?_dropWhile_not (fun arg ↦ !startsWithDash arg) args
  rw [Option.mem_def.mp harg] at hnot
  simpa using hnot

/-- Every list is a run of arguments without a dash in front, and nothing or a dash behind it. -/
theorem exists_bare_append (args : List String) :
    ∃ bare rest, args = bare ++ rest ∧ (∀ arg ∈ bare, startsWithDash arg = false) ∧
      ∀ arg ∈ rest.head?, startsWithDash arg = true :=
  ⟨scriptNames args, args.dropWhile fun arg ↦ !startsWithDash arg,
    List.takeWhile_append_dropWhile.symm, startsWithDash_of_mem_scriptNames,
    startsWithDash_of_head?_dropWhile⟩

/-- A reading that starts at a dash, or at the end, and succeeds has read groups. -/
theorem exists_groups_of_readFrom {final : State} :
    ∀ (args : List String) (draft : Draft), (∀ arg ∈ args.head?, startsWithDash arg = true) →
      readFrom library policy { draft := draft } args = .ok final →
        ∃ (groups : List CommandGroup) (fromStdin : Bool),
          args = groups.flatMap CommandGroup.spelling ++ stdinRequest fromStdin ∧
          (∀ group ∈ groups, group.IsValid policy) ∧
            final.result =
              { commands := draft.commands ++ groups.map CommandGroup.command
                fromStdin := fromStdin } := by
  intro args
  -- A step of the recursion takes a dash, its name and the arguments up to the next dash.
  induction hlength : args.length using Nat.strongRecOn generalizing args with
  | _ length ih =>
    intro draft hhead h
    cases args with
    | nil =>
      obtain rfl : State.mk draft false = final := Except.ok.inj h
      exact ⟨[], false, rfl, by simp, by simp [State.result]⟩
    | cons arg args =>
      rcases readFrom_dash_eq_ok (hhead arg rfl) h with
        ⟨rfl, rfl, rfl⟩ | ⟨apart, name, after, hafter, hname, hread⟩
      · exact ⟨[], true, rfl, by simp, by simp [State.result]⟩
      · obtain ⟨own, rest, rfl, hown, hrest⟩ := exists_bare_append after
        rw [readFrom_ownArgs (Draft.isSound_begin _ _) (Draft.hasOpen_begin _ _) hown] at hread
        have hshorter : rest.length < length := by
          have hcount := congrArg List.length hafter
          have hdash : 0 < (announce apart name).length := by cases apart <;> simp [announce]
          simp only [List.length_append] at hcount
          omega
        obtain ⟨groups, fromStdin, hspelling, hvalid, hresult⟩ :=
          ih rest.length hshorter rest rfl _ hrest hread
        refine ⟨⟨apart, name, own⟩ :: groups, fromStdin, ?_, ?_, ?_⟩
        · rw [hafter, hspelling]
          simp [CommandGroup.spelling]
        · intro group hgroup
          rcases List.mem_cons.mp hgroup with rfl | hgroup
          · exact ⟨hname, hown⟩
          · exact hvalid group hgroup
        · rw [hresult, Draft.commands_addArgs_begin]
          simp [CommandGroup.command]

/-! ### Scripts -/

theorem readFrom_scripts_eq_ok_iff {names : List String}
    (hnames : ∀ name ∈ names, startsWithDash name = false) (commands : List Command)
    (rest : List String) (final : State) :
    readFrom library policy { draft := .continuing commands } (names ++ rest) = .ok final ↔
      ∃ scripts : List LoadedScript,
        List.Forall₂ (fun name script ↦ library.load policy name = .ok script) names scripts ∧
          readFrom library policy
            { draft := .continuing (commands ++ scripts.flatMap LoadedScript.contribution) } rest =
              .ok final := by
  induction names generalizing commands with
  | nil => simp
  | cons name names ih =>
    have hrest := fun other hother ↦ hnames other (List.mem_cons_of_mem _ hother)
    rw [List.cons_append, readFrom_script commands (hnames name List.mem_cons_self)]
    constructor
    · intro h
      obtain ⟨script, hload, hlater⟩ := bind_eq_ok_iff.mp h
      obtain ⟨scripts, hscripts, hread⟩ := (ih hrest _).mp hlater
      refine ⟨script :: scripts, List.Forall₂.cons hload hscripts, ?_⟩
      rwa [List.flatMap_cons, ← List.append_assoc]
    · rintro ⟨scripts, hscripts, hread⟩
      cases hscripts with
      | cons hload hscripts =>
        rw [List.flatMap_cons, ← List.append_assoc] at hread
        rw [hload]
        exact (ih hrest _).mpr ⟨_, hscripts, hread⟩

/-- The library is consulted for names in front of the first dash only. -/
theorem readFrom_eq_of_scriptNames {other : ScriptLibrary} :
    ∀ (args : List String) (commands : List Command),
      (∀ name ∈ scriptNames args, library name = other name) →
        readFrom library policy { draft := .continuing commands } args =
          readFrom other policy { draft := .continuing commands } args := by
  intro args
  induction args with
  | nil => intro _ _; rfl
  | cons arg args ih =>
    intro commands hagree
    by_cases harg : startsWithDash arg = true
    · exact readFrom_eq_of_isPastScripts library other (Draft.isSound_continuing commands)
        (Or.inr ⟨arg, rfl, harg⟩)
    · have hbare : startsWithDash arg = false := Bool.eq_false_iff.mpr harg
      have hnames : scriptNames (arg :: args) = arg :: scriptNames args := by
        simp [scriptNames, hbare]
      rw [hnames] at hagree
      have hload : library.load policy arg = other.load policy arg := by
        rw [ScriptLibrary.load, ScriptLibrary.load, hagree arg List.mem_cons_self]
      rw [readFrom_script commands hbare, readFrom_script commands hbare, hload]
      cases other.load policy arg with
      | error failure => rfl
      | ok script => exact ih _ fun name hname ↦ hagree name (List.mem_cons_of_mem _ hname)

end Grammar

theorem parse_eq_ok_iff {library : ScriptLibrary} {policy : NamePolicy} {args : List String}
    {stream : CommandStream} :
    parse library policy args = .ok stream ↔
      ∃ final, readFrom library policy {} args = .ok final ∧ final.result = stream :=
  map_eq_ok_iff

/-- An argument list is read if and only if it consists of names of readable scripts, of valid
groups and possibly of a lone dash. Then the stream holds, in order, for each script its marker and
its commands, and behind them for each group its command under the folded name. Libraries that agree
on the names in front of the first dash give the same result, whatever it is; so do any two where
the list starts with a dash. -/
theorem parse_eq_ok_iff_grammar (policy : NamePolicy) (args : List String) :
    (∀ (library : ScriptLibrary) (stream : CommandStream),
      parse library policy args = .ok stream ↔
        ∃ (names : List String) (scripts : List LoadedScript) (groups : List CommandGroup)
          (fromStdin : Bool),
          args = names ++ groups.flatMap CommandGroup.spelling ++ stdinRequest fromStdin ∧
            (∀ name ∈ names, startsWithDash name = false) ∧
            List.Forall₂ (fun name script ↦ library.load policy name = .ok script) names scripts ∧
            (∀ group ∈ groups, group.IsValid policy) ∧
            stream =
              { commands :=
                  (scripts.flatMap fun script ↦
                      { name := "<file>", args := [script.path] } :: script.commands) ++
                    groups.map fun group ↦
                      { name := canonicalName group.name, args := group.args }
                fromStdin := fromStdin }) ∧
      (∀ library other : ScriptLibrary, (∀ name ∈ scriptNames args, library name = other name) →
        parse library policy args = parse other policy args) ∧
      ∀ (library other : ScriptLibrary) (first : String) (rest : List String),
        args = first :: rest → startsWithDash first = true →
          parse library policy args = parse other policy args := by
  have hagree : ∀ library other : ScriptLibrary,
      (∀ name ∈ scriptNames args, library name = other name) →
        parse library policy args = parse other policy args := by
    intro library other hnames
    rw [parse, parse, show (State.mk {} false) = State.mk (.continuing []) false from rfl,
      readFrom_eq_of_scriptNames args [] hnames]
  refine ⟨fun library stream ↦ ?_, hagree, fun library other first rest hargs hfirst ↦ ?_⟩
  · rw [parse_eq_ok_iff]
    constructor
    · rintro ⟨final, hread, rfl⟩
      obtain ⟨names, rest, rfl, hnames, hrest⟩ := exists_bare_append args
      obtain ⟨scripts, hscripts, hgroups⟩ :=
        (readFrom_scripts_eq_ok_iff hnames [] rest final).mp hread
      obtain ⟨groups, fromStdin, rfl, hvalid, hresult⟩ :=
        exists_groups_of_readFrom rest _ hrest hgroups
      refine ⟨names, scripts, groups, fromStdin, ?_, hnames, hscripts, hvalid, ?_⟩
      · rw [List.append_assoc]
      · rw [hresult, Draft.commands_continuing, List.nil_append]
        rfl
    · rintro ⟨names, scripts, groups, fromStdin, rfl, hnames, hscripts, hvalid, rfl⟩
      obtain ⟨later, hlater, hread⟩ := readFrom_groups hvalid
        (.continuing ([] ++ scripts.flatMap LoadedScript.contribution)) (stdinRequest fromStdin)
      refine ⟨{ draft := later, awaitsName := fromStdin }, ?_, ?_⟩
      · rw [List.append_assoc]
        refine (readFrom_scripts_eq_ok_iff hnames [] _ _).mpr ⟨scripts, hscripts, ?_⟩
        rw [hread, readFrom_stdinRequest]
      · rw [State.result, hlater, Draft.commands_continuing, List.nil_append]
        rfl
  · refine hagree library other fun name hname ↦ ?_
    rw [hargs] at hname
    simp [scriptNames, hfirst] at hname

/-- A script in front of a command. With a dash in front, its very name is an argument like any
other. -/
theorem parse_boot_go :
    let library : ScriptLibrary := fun _ ↦
      some { path := "/work/boot.fab", content := Utf8.encode "Load \"a b\"\n" }
    let other : ScriptLibrary := fun name ↦ if name = "boot.fab" then library name else none
    let args := ["boot.fab", "-Go", "now", "-"]
    parse library .strict args =
        .ok
          { commands := [{ name := "<file>", args := ["/work/boot.fab"] },
              { name := "load", args := ["a b"] }, { name := "go", args := ["now"] }]
            fromStdin := true } ∧
      parse library .strict args = parse other .strict args ∧
      parse library .strict ["-go", "boot.fab", "-"] =
        parse (fun _ ↦ none) .strict ["-go", "boot.fab", "-"] := by
  intro library other args
  have hlines : Script.lines (Utf8.encode "Load \"a b\"\n") = ["Load \"a b\""] :=
    @lines_encode_unlines ["Load \"a b\"".toList] (by decide) (by decide)
  have hparse : Script.parse .strict (Utf8.encode "Load \"a b\"\n") =
      .ok [{ name := "load", args := ["a b"] }] := by
    rw [Script.parse, hlines]
    rfl
  have hload : library.load .strict "boot.fab" =
      .ok { path := "/work/boot.fab", commands := [{ name := "load", args := ["a b"] }] } := by
    change (LoadedScript.mk "/work/boot.fab" ·) <$> (Script.parse .strict _).mapError _ = _
    rw [hparse]
    rfl
  have hvalid : ∀ group ∈ [CommandGroup.mk false "Go" ["now"]], group.IsValid .strict := by
    intro group hgroup
    obtain rfl := List.mem_singleton.mp hgroup
    exact ⟨by decide, by decide⟩
  obtain ⟨hgrammar, hagree, -⟩ := parse_eq_ok_iff_grammar .strict args
  refine ⟨(hgrammar library _).mpr ⟨["boot.fab"], [_], [_], true, rfl, by decide, .cons hload .nil,
    hvalid, rfl⟩, hagree library other fun name hname ↦ ?_,
    (parse_eq_ok_iff_grammar .strict ["-go", "boot.fab", "-"]).2.2 _ _ "-go" ["boot.fab", "-"] rfl
      (by decide)⟩
  obtain rfl : name = "boot.fab" := List.mem_singleton.mp hname
  exact (if_pos rfl).symm

end Arguments

end CommandScript
