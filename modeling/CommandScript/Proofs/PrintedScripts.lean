import CommandScript.Proofs.ScriptText
import CommandScript.Report
import Mathlib.Data.List.Basic
/-!
# Printed streams as scripts

The text of a stream is always a script that can be read, but not always one for the same stream. A
quote mark and a backslash are printed as a line's reader expects them. A character below U+0020 is
printed as a backslash and letters, of which the reader drops the backslash and keeps the letters
(`readBack`), and of an empty argument the reader keeps nothing. So the commands come back exactly
if no argument is empty or holds such a character (`parseAs_render_eq_ok_iff`).
-/

set_option autoImplicit false
set_option relaxedAutoImplicit false

namespace CommandScript

open Tokens

/-! ### What becomes of a printed character -/

/-- A printed character below U+0020 is a backslash with letters or digits behind it. -/
theorem Json.escape_of_lt {c : Char} (hc : c.toNat < 0x20) :
    ∃ letters, escape c = '\\' :: letters ∧ letters ≠ [] ∧ ∀ d ∈ letters, d.isAlphanum = true := by
  have hall : ∀ n < 0x20, (escape (Char.ofNat n)).head? = some '\\' ∧
      (escape (Char.ofNat n)).tail ≠ [] ∧
        (escape (Char.ofNat n)).tail.all Char.isAlphanum = true := by
    decide
  have h := hall c.toNat hc
  rw [Char.ofNat_toNat, List.all_eq_true] at h
  obtain ⟨letters, hletters⟩ := List.head?_eq_some_iff.mp h.1
  rw [hletters] at h
  exact ⟨letters, hletters, h.2⟩

/-- From U+0020 on, only the quote mark and the backslash are printed with a backslash in front. -/
theorem Json.escape_of_le {c : Char} (hc : 0x20 ≤ c.toNat) : escape c = Tokens.escape c := by
  have hne : ∀ d : Char, d.toNat < 0x20 → c ≠ d := by
    rintro d hd rfl
    omega
  rw [escape, Tokens.escape]
  by_cases hquote : c = '"'
  · subst hquote
    rfl
  by_cases hbackslash : c = '\\'
  · subst hbackslash
    rfl
  rw [if_neg hquote, if_neg hbackslash, if_neg (hne '\n' (by decide)),
    if_neg (hne '\r' (by decide)), if_neg (hne '\t' (by decide)), if_neg (hne '\x08' (by decide)),
    if_neg (hne '\x0c' (by decide)), if_neg (Nat.not_lt.mpr hc),
    if_neg (not_or.mpr ⟨hquote, hbackslash⟩)]

/-- What a line's reader makes of a printed character. -/
def readBack (c : Char) : List Char := if c.toNat < 0x20 then (Json.escape c).tail else [c]

theorem spells_alphanum {text : List Char} (h : ∀ c ∈ text, c.isAlphanum = true) :
    Spells text text := by
  have hplain : ∀ c ∈ text, Spells [c] [c] := by
    intro c hc
    have halphanum := h c hc
    refine spells_plain ?_ ?_
    · rintro rfl
      exact absurd halphanum (by decide)
    · rintro rfl
      exact absurd halphanum (by decide)
  have hspells := spells_flatMap hplain
  rwa [List.flatMap_singleton'] at hspells

theorem spells_json_escape (c : Char) : Spells (Json.escape c) (readBack c) := by
  rw [readBack]
  split
  · next hc =>
    obtain ⟨letters, hescape, hne, hletters⟩ := Json.escape_of_lt hc
    obtain ⟨d, rest, rfl⟩ := List.exists_cons_of_ne_nil hne
    rw [hescape]
    exact (spells_escaped d).append
      (spells_alphanum fun e he ↦ hletters e (List.mem_cons_of_mem _ he))
  · next hc =>
    rw [Json.escape_of_le (Nat.le_of_not_lt hc)]
    exact spells_escape c

theorem le_toNat_of_isAlphanum {c : Char} (h : c.isAlphanum = true) : 0x20 ≤ c.toNat := by
  have hname : isNameChar c = true := by simp [isNameChar, h]
  have := (toNat_of_isNameChar hname).1
  omega

/-- No printed character lies below U+0020. -/
theorem le_toNat_of_mem_json_escape {c d : Char} (h : d ∈ Json.escape c) : 0x20 ≤ d.toNat := by
  by_cases hc : c.toNat < 0x20
  · obtain ⟨letters, hescape, -, hletters⟩ := Json.escape_of_lt hc
    rw [hescape] at h
    rcases List.mem_cons.mp h with rfl | h
    · decide
    · exact le_toNat_of_isAlphanum (hletters d h)
  · rw [Json.escape_of_le (Nat.le_of_not_lt hc)] at h
    rcases eq_or_eq_of_mem_escape h with rfl | rfl
    · decide
    · exact Nat.le_of_not_lt hc

theorem le_toNat_of_mem_readBack {c d : Char} (h : d ∈ readBack c) : 0x20 ≤ d.toNat := by
  rw [readBack] at h
  split at h
  · next hc =>
    obtain ⟨letters, hescape, -, hletters⟩ := Json.escape_of_lt hc
    rw [hescape, List.tail_cons] at h
    exact le_toNat_of_isAlphanum (hletters d h)
  · next hc => exact List.mem_singleton.mp h ▸ Nat.le_of_not_lt hc

theorem readBack_ne_nil (c : Char) : readBack c ≠ [] := by
  rw [readBack]
  split
  · next hc =>
    obtain ⟨letters, hescape, hne, -⟩ := Json.escape_of_lt hc
    rwa [hescape, List.tail_cons]
  · exact List.cons_ne_nil c []

/-! ### What becomes of a printed stream -/

/-- Whether a line's reader gives an argument back as it was: it is not empty, and no character of
it lies below U+0020. -/
def IsReadable (arg : String) : Prop := arg ≠ "" ∧ ∀ c ∈ arg.toList, 0x20 ≤ c.toNat

theorem map_eq_self_iff {α : Type} {f : α → α} {items : List α} :
    items.map f = items ↔ ∀ item ∈ items, f item = item := by
  simpa using List.map_eq_map_iff (f := f) (g := id) (l := items)

theorem flatMap_readBack_eq_self_iff {chars : List Char} :
    chars.flatMap readBack = chars ↔ ∀ c ∈ chars, 0x20 ≤ c.toNat := by
  constructor
  · intro h c hc
    rw [← h] at hc
    obtain ⟨d, -, hcd⟩ := List.mem_flatMap.mp hc
    exact le_toNat_of_mem_readBack hcd
  · intro h
    have hself : ∀ c ∈ chars, readBack c = [c] := fun c hc ↦ if_neg (Nat.not_lt.mpr (h c hc))
    rw [List.flatMap_congr hself, List.flatMap_singleton']

theorem isEmpty_flatMap_readBack (arg : String) :
    (arg.toList.flatMap readBack).isEmpty = true ↔ arg = "" := by
  rw [List.isEmpty_iff, List.flatMap_eq_nil_iff]
  constructor
  · intro h
    refine String.toList_eq_nil_iff.mp (List.eq_nil_iff_forall_not_mem.mpr fun c hc ↦ ?_)
    exact readBack_ne_nil c (h c hc)
  · rintro rfl c hc
    simp at hc

/-- Arguments are given back exactly if each of them is. -/
theorem args_eq_self_iff (args : List String) :
    ((args.map fun arg ↦ arg.toList.flatMap readBack).filter fun text ↦ !text.isEmpty).map
        String.ofList = args ↔ ∀ arg ∈ args, IsReadable arg := by
  constructor
  · intro h
    -- None can have been left out, or there would be fewer of them.
    have hlength := congrArg List.length h
    rw [List.length_map, ← List.length_map (fun arg : String ↦ arg.toList.flatMap readBack),
      List.length_filter_eq_length_iff] at hlength
    rw [List.filter_eq_self.mpr hlength, List.map_map] at h
    intro arg harg
    have hempty := hlength _ (List.mem_map_of_mem harg)
    have hsame := congrArg String.toList (map_eq_self_iff.mp h arg harg)
    refine ⟨fun hnil ↦ ?_, flatMap_readBack_eq_self_iff.mp (by simpa using hsame)⟩
    rw [(isEmpty_flatMap_readBack arg).mpr hnil] at hempty
    cases hempty
  · intro h
    have hempty : ∀ text ∈ args.map (fun arg ↦ arg.toList.flatMap readBack),
        (!text.isEmpty) = true := by
      intro text htext
      obtain ⟨arg, harg, rfl⟩ := List.mem_map.mp htext
      rw [Bool.not_eq_true', Bool.eq_false_iff]
      exact fun hnil ↦ (h arg harg).1 ((isEmpty_flatMap_readBack arg).mp hnil)
    rw [List.filter_eq_self.mpr hempty, List.map_map]
    refine map_eq_self_iff.mpr fun arg harg ↦ ?_
    rw [Function.comp_apply, flatMap_readBack_eq_self_iff.mpr (h arg harg).2, String.ofList_toList]

/-- The text of a stream that asks for nothing more is that of its commands, each on a line. -/
theorem render_text_eq_unlines (commands : List Command) :
    CommandStream.render { commands } .text =
      unlines (commands.map (commandText fun arg ↦ arg.toList.flatMap Json.escape)) := by
  rw [CommandStream.render, CommandStream.textChars, unlines, List.flatMap_map]
  simp only [Bool.false_eq_true, ↓reduceIte, List.append_nil]
  rfl

/-- The text of commands with valid names is always read, whatever their arguments are. -/
theorem parse_render {policy : NamePolicy} {commands : List Command}
    (hnames : ∀ command ∈ commands, policy.accepts command.name = true) :
    Script.parse policy (Utf8.encode (CommandStream.render { commands } .text)) =
      .ok (commands.map (commandRead fun arg ↦ arg.toList.flatMap readBack)) := by
  rw [render_text_eq_unlines]
  refine parse_commandText hnames (fun _ _ arg _ ↦ spells_flatMap fun c _ ↦ spells_json_escape c)
    fun command _ arg _ ↦ ?_
  have hlow : ∀ d ∈ arg.toList.flatMap Json.escape, 0x20 ≤ d.toNat := by
    intro d hd
    obtain ⟨c, -, hcd⟩ := List.mem_flatMap.mp hd
    exact le_toNat_of_mem_json_escape hcd
  exact ⟨fun hcr ↦ absurd (hlow '\r' hcr) (by decide), fun hlf ↦ absurd (hlow '\n' hlf) (by decide)⟩

/-- A stream's text is a script for the stream exactly if no argument is empty and none holds a
character below U+0020. -/
theorem parseAs_render_eq_ok_iff {policy : NamePolicy} {commands : List Command}
    (hnames : ∀ command ∈ commands, policy.accepts command.name = true ∧
      canonicalName command.name = command.name) (source : String) :
    Script.parseAs policy source
        (Utf8.encode (CommandStream.render { commands, fromStdin := false } .text)) = .ok commands ↔
      ∀ command ∈ commands, ∀ arg ∈ command.args,
        arg ≠ "" ∧ ∀ c ∈ arg.toList, 0x20 ≤ c.toNat := by
  rw [Script.parseAs_eq_ok_iff, parse_render fun command hcommand ↦ (hnames command hcommand).1,
    Except.ok.injEq]
  have hread : ∀ command ∈ commands,
      commandRead (fun arg ↦ arg.toList.flatMap readBack) command = command ↔
        ∀ arg ∈ command.args, IsReadable arg := by
    intro command hcommand
    rw [← args_eq_self_iff, commandRead, (hnames command hcommand).2]
    obtain ⟨name, args⟩ := command
    simp
  rw [map_eq_self_iff]
  constructor
  · intro h command hcommand
    exact (hread command hcommand).mp (h command hcommand)
  · intro h command hcommand
    exact (hread command hcommand).mpr (h command hcommand)

/-- A dash, blanks at either end, quotes, a backslash and U+FEFF come back; a tab would not. -/
theorem parseAs_render_say :
    Script.parseAs .strict "a.fab"
        (Utf8.encode (CommandStream.render
          { commands := [{ name := "say", args := ["--", " a ", "\"\\", "\uFEFF"] }]
            fromStdin := false } .text)) =
      .ok [{ name := "say", args := ["--", " a ", "\"\\", "\uFEFF"] }] :=
  (parseAs_render_eq_ok_iff (by decide) "a.fab").mpr (by simp)

end CommandScript
