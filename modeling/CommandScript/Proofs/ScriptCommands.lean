import CommandScript.Proofs.NameFolding
import CommandScript.Proofs.Names
import CommandScript.Proofs.Results
import CommandScript.Script.Library
import Mathlib.Data.List.Forall2
import Mathlib.Tactic.SplitIfs
/-!
# The commands of a script

A script that is read has tokens on each of its lines, and its commands are those that the tokens
spell, a line at a time (`commandsOfLines_eq_ok_iff`). So whatever a script holds, its commands are
in order: each has a name that the policy accepts and that is folded already, and no argument is
empty (`isWellFormed_of_parse`). The last follows from the reading of tokens, which puts no empty
one behind the token under way (`ne_nil_of_mem_later`).
-/

set_option autoImplicit false
set_option relaxedAutoImplicit false

namespace CommandScript

/-! ### Tokens -/

namespace Tokens

theorem Remaining.ne_nil_of_mem_toList {remaining : Remaining}
    (h : ∀ token ∈ remaining.later, token ≠ []) : ∀ token ∈ remaining.toList, token ≠ [] := by
  intro token htoken
  rw [toList] at htoken
  split at htoken
  · exact h token htoken
  · next hword =>
    rcases List.mem_cons.mp htoken with rfl | hlater
    · simpa using hword
    · exact h token hlater

/-- Only the token under way may be empty. -/
theorem ne_nil_of_mem_later {mode : Mode} {held : Bool} {line : List Char} {remaining : Remaining}
    (h : scan mode held line = .ok remaining) : ∀ token ∈ remaining.later, token ≠ [] := by
  induction line generalizing mode held remaining with
  | nil =>
    cases mode with
    | plain =>
      obtain rfl := Except.ok.inj h
      intro token htoken
      exact absurd htoken List.not_mem_nil
    | quoted | escaped => cases h
  | cons c rest ih =>
    cases mode with
    | plain =>
      rw [scan] at h
      split_ifs at h with hquote hdash hheld hblank
      · exact ih h
      · obtain rfl := Except.ok.inj h
        intro token htoken
        exact absurd htoken List.not_mem_nil
      · exact ih h
      · obtain ⟨before, hbefore, rfl⟩ := map_eq_ok_iff.mp h
        exact Remaining.ne_nil_of_mem_toList (ih hbefore)
      · obtain ⟨before, hbefore, rfl⟩ := map_eq_ok_iff.mp h
        have hlater := ih hbefore
        exact hlater
    | quoted =>
      rw [scan] at h
      split_ifs at h with hbackslash hquote
      · exact ih h
      · exact ih h
      · obtain ⟨before, hbefore, rfl⟩ := map_eq_ok_iff.mp h
        have hlater := ih hbefore
        exact hlater
    | escaped =>
      obtain ⟨before, hbefore, rfl⟩ := map_eq_ok_iff.mp h
      have hlater := ih hbefore
      exact hlater

end Tokens

theorem ne_nil_of_mem_tokenize {line : List Char} {tokens : List (List Char)}
    (h : tokenize line = .ok tokens) : ∀ token ∈ tokens, token ≠ [] := by
  obtain ⟨remaining, hscan, rfl⟩ := map_eq_ok_iff.mp h
  exact Tokens.Remaining.ne_nil_of_mem_toList (Tokens.ne_nil_of_mem_later hscan)

/-! ### Commands -/

/-- A command under a name that the policy accepts, as it is kept. -/
structure Command.IsNamed (policy : NamePolicy) (command : Command) : Prop where
  accepted : policy.accepts command.name = true
  folded : canonicalName command.name = command.name

theorem Command.isNamed_canonicalName {policy : NamePolicy} {name : String}
    (h : policy.accepts name = true) (args : List String) :
    IsNamed policy { name := canonicalName name, args := args } where
  accepted := (policy.accepts_canonicalName name).trans h
  folded := canonicalName_canonicalName name

/-- No policy accepts the name of a marker. -/
theorem Command.IsNamed.not_isFileMarker {policy : NamePolicy} {command : Command}
    (h : command.IsNamed policy) : command.isFileMarker = false := by
  rw [isFileMarker, beq_eq_false_iff_ne]
  intro hmarker
  have hchars := NamePolicy.isNameChar_of_accepts h.accepted
  rw [hmarker] at hchars
  exact absurd (hchars '<' (by decide)) (by decide)

namespace Script

variable {policy : NamePolicy} {lines : List String} {line : String}

/-- The command that the tokens of a line spell, if there are any: the first is its name, in lower
case, and the others are its arguments as they stand. -/
def spelled? : List (List Char) → Option Command
  | [] => none
  | name :: args =>
    some { name := canonicalName (String.ofList name), args := args.map String.ofList }

/-- The tokens of lines that can be read, line by line: the first on a line is accepted as a
name. -/
structure AreTokensOf (policy : NamePolicy) (lines : List String)
    (tokens : List (List (List Char))) : Prop where
  tokenized : List.Forall₂ (fun line found ↦ tokenize (trim line.toList) = .ok found) lines tokens
  accepted : ∀ found ∈ tokens, ∀ name ∈ found.head?, policy.accepts (String.ofList name) = true

theorem commandOfLine_eq_ok_iff {command : Option Command} :
    commandOfLine policy line = .ok command ↔ ∃ tokens, tokenize (trim line.toList) = .ok tokens ∧
      (∀ name ∈ tokens.head?, policy.accepts (String.ofList name) = true) ∧
        spelled? tokens = command := by
  rw [commandOfLine]
  cases tokenize (trim line.toList) with
  | error what => simp
  | ok tokens =>
    cases tokens with
    | nil => simp [commandOfTokens, spelled?]
    | cons name args =>
      simp only [List.map_cons, commandOfTokens]
      split_ifs with hname
      · simp [hname, spelled?]
      · simp [hname]

/-- The lines of a script that is read have tokens, and its commands are what these spell. -/
theorem commandsOfLines_eq_ok_iff {commands : List Command} :
    commandsOfLines policy lines = .ok commands ↔
      ∃ tokens, AreTokensOf policy lines tokens ∧ tokens.filterMap spelled? = commands := by
  induction lines generalizing commands with
  | nil =>
    constructor
    · intro h
      obtain rfl := Except.ok.inj h
      exact ⟨[], ⟨.nil, by simp⟩, rfl⟩
    · rintro ⟨tokens, ⟨htokens, -⟩, rfl⟩
      obtain rfl := List.forall₂_nil_left_iff.mp htokens
      rfl
  | cons line lines ih =>
    constructor
    · intro h
      obtain ⟨command, hline, hrest⟩ := bind_eq_ok_iff.mp h
      obtain ⟨later, hlines, hcommands⟩ := bind_eq_ok_iff.mp hrest
      obtain rfl := Except.ok.inj hcommands
      obtain ⟨found, hfound, hname, rfl⟩ := commandOfLine_eq_ok_iff.mp hline
      obtain ⟨others, ⟨hothers, hnames⟩, rfl⟩ := ih.mp hlines
      refine ⟨found :: others, ⟨.cons hfound hothers, List.forall_mem_cons.mpr ⟨hname, hnames⟩⟩, ?_⟩
      rw [List.filterMap_cons]
      cases spelled? found <;> rfl
    · rintro ⟨tokens, ⟨htokens, hnames⟩, rfl⟩
      obtain ⟨found, others, hfound, hothers, rfl⟩ := List.forall₂_cons_left_iff.mp htokens
      obtain ⟨hname, hlater⟩ := List.forall_mem_cons.mp hnames
      rw [commandsOfLines, commandOfLine_eq_ok_iff.mpr ⟨found, hfound, hname, rfl⟩,
        ih.mpr ⟨others, ⟨hothers, hlater⟩, rfl⟩, List.filterMap_cons]
      cases spelled? found <;> rfl

/-- What holds of every command of every script. -/
structure IsWellFormed (policy : NamePolicy) (command : Command) : Prop where
  named : command.IsNamed policy
  args_ne_empty : ∀ arg ∈ command.args, arg ≠ ""

/-- No token of a line is empty. -/
theorem AreTokensOf.ne_nil {tokens : List (List (List Char))}
    (h : AreTokensOf policy lines tokens) :
    ∀ found ∈ tokens, ∀ token ∈ found, token ≠ [] := by
  obtain ⟨htokens, -⟩ := h
  induction htokens with
  | nil =>
    intro found hfound
    exact absurd hfound List.not_mem_nil
  | cons hline _ ih => exact List.forall_mem_cons.mpr ⟨ne_nil_of_mem_tokenize hline, ih⟩

theorem isWellFormed_of_spelled? {found : List (List Char)} {command : Command}
    (hname : ∀ name ∈ found.head?, policy.accepts (String.ofList name) = true)
    (hne : ∀ token ∈ found, token ≠ []) (h : spelled? found = some command) :
    IsWellFormed policy command := by
  cases found with
  | nil => cases h
  | cons name args =>
    obtain rfl := Option.some.inj h
    refine ⟨Command.isNamed_canonicalName (hname name rfl) _, fun arg harg ↦ ?_⟩
    obtain ⟨token, htoken, rfl⟩ := List.mem_map.mp harg
    simpa using hne token (List.mem_cons_of_mem _ htoken)

theorem isWellFormed_of_parse {content : Bytes} {commands : List Command}
    (h : parse policy content = .ok commands) :
    ∀ command ∈ commands, IsWellFormed policy command := by
  obtain ⟨tokens, htokens, rfl⟩ := commandsOfLines_eq_ok_iff.mp h
  intro command hcommand
  obtain ⟨found, hfound, hspelled⟩ := List.mem_filterMap.mp hcommand
  exact isWellFormed_of_spelled? (htokens.accepted found hfound) (htokens.ne_nil found hfound)
    hspelled

end Script

end CommandScript
