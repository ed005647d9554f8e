import CommandScript.Proofs.DoubleDash
import CommandScript.Proofs.QuotedTokens
import CommandScript.Proofs.ScriptCommands
import Mathlib.Data.List.DropRight
/-!
# Blanks between tokens and around them

Blanks in front of a line never matter (`tokenize_gap_append`). Behind a line they can be content,
between quotes or behind a backslash, but then the line leaves a quote open with them. So they
change nothing but the failure that is reported: the first of them completes an escape that the line
would end in (`tokenize_append_gap`). A line can therefore be trimmed before it is read
(`tokenize_trimGaps`).

Quoted texts with blanks between any two of them are read back as they are, unless a text is empty.
Since no token is, these are all the lists that a line can hold (`tokenize_expresses_texts`).
-/

set_option autoImplicit false
set_option relaxedAutoImplicit false

namespace CommandScript

namespace Tokens

section Gaps

variable {gap : List Char}

/-! ### Blanks in front of a line -/

theorem tokenize_gap_append (hgap : IsGap gap) (line : List Char) :
    tokenize (gap ++ line) = tokenize line := by
  by_cases hne : gap = []
  · rw [hne, List.nil_append]
  · unfold tokenize
    rw [scan_plain_gap hgap hne]
    cases scan .plain false line <;> rfl

/-! ### Blanks behind a line -/

/-- What a line leaves open with a run of blanks at its end: the first of them completes an
escape. -/
def leftOpen (gap : List Char) (what : Unterminated) : Unterminated :=
  if gap = [] then what else .quote

/-- Between quotes blanks are content, and the quote stays open. -/
theorem scan_quoted_gap (hgap : IsGap gap) (held : Bool) :
    scan .quoted held gap = .error .quote := by
  induction gap generalizing held with
  | nil => rfl
  | cons c gap ih =>
    have hplain : c ≠ '\\' ∧ c ≠ '"' := by
      rcases isSeparator_iff.mp (hgap c List.mem_cons_self) with rfl | rfl
      · decide
      · decide
    rw [scan, if_neg hplain.1, if_neg hplain.2, ih fun d hd ↦ hgap d (List.mem_cons_of_mem _ hd)]
    rfl

theorem scan_gap (hgap : IsGap gap) (mode : Mode) (held : Bool) :
    scan mode held gap = (scan mode held []).mapError (leftOpen gap) := by
  by_cases hne : gap = []
  · subst hne
    cases mode <;> rfl
  · obtain ⟨c, rest, rfl⟩ := List.exists_cons_of_ne_nil hne
    cases mode with
    | plain =>
      have hplain := scan_plain_gap hgap hne held []
      rw [List.append_nil] at hplain
      exact hplain
    | quoted => exact scan_quoted_gap hgap held
    | escaped =>
      rw [scan, scan, scan_quoted_gap fun d hd ↦ hgap d (List.mem_cons_of_mem _ hd)]
      rfl

/-- Blanks behind a line change nothing but what it leaves open. -/
theorem scan_append_gap (hgap : IsGap gap) (mode : Mode) (held : Bool) (line : List Char) :
    scan mode held (line ++ gap) = (scan mode held line).mapError (leftOpen gap) := by
  induction line generalizing mode held with
  | nil => exact scan_gap hgap mode held
  | cons c rest ih =>
    rw [List.cons_append]
    cases mode with
    | escaped => rw [scan, scan, ih, mapError_map]
    | quoted =>
      rw [scan, scan]
      split_ifs with hbackslash hquote
      · exact ih .escaped held
      · exact ih .plain held
      · rw [ih, mapError_map]
    | plain =>
      rw [scan, scan]
      split_ifs with hquote hdash hheld hblank
      · exact ih .quoted held
      · rfl
      · exact ih .plain true
      · rw [ih, mapError_map]
      · rw [ih, mapError_map]

theorem tokenize_append_gap (hgap : IsGap gap) (line : List Char) :
    tokenize (line ++ gap) = (tokenize line).mapError (leftOpen gap) := by
  unfold tokenize
  rw [scan_append_gap hgap, mapError_map]

end Gaps

/-! ### Trimmed lines -/

/-- A line without the blanks at its two ends. -/
def trimGaps (line : List Char) : List Char :=
  (line.rdropWhile isSeparator).dropWhile isSeparator

/-- The line ends in a backslash that stands between quotes and is not escaped itself. -/
def EndsInEscape (line : List Char) : Prop :=
  ∃ before, line = before ++ ['\\'] ∧ modeAfter .plain before = .quoted

section Trim

variable {line : List Char} {what : Unterminated}

/-- How a character would be read behind a line that leaves something open. -/
def openMode : Unterminated → Mode
  | .quote => .quoted
  | .escape => .escaped

theorem modeAfter_of_scan_eq_error {mode : Mode} {held : Bool}
    (h : scan mode held line = .error what) : modeAfter mode line = openMode what := by
  induction line generalizing mode held with
  | nil =>
    cases mode with
    | plain => cases h
    | quoted | escaped =>
      obtain rfl := Except.error.inj h
      rfl
  | cons c rest ih =>
    change modeAfter (mode.next c) rest = openMode what
    cases mode with
    | escaped => exact ih (map_eq_error_iff.mp h)
    | quoted =>
      rw [scan] at h
      rw [Mode.next]
      split_ifs at h ⊢ with hbackslash hquote
      · exact ih h
      · exact ih h
      · exact ih (map_eq_error_iff.mp h)
    | plain =>
      rw [scan] at h
      rw [Mode.next]
      split_ifs at h ⊢ with hquote hdash hheld hblank
      · exact ih h
      · exact ih h
      · exact ih (map_eq_error_iff.mp h)
      · exact ih (map_eq_error_iff.mp h)

theorem Mode.next_eq_escaped_iff {mode : Mode} {c : Char} :
    mode.next c = .escaped ↔ mode = .quoted ∧ c = '\\' := by
  cases mode with
  | plain =>
    rw [next]
    split_ifs <;> simp
  | quoted =>
    rw [next]
    split_ifs with hbackslash <;> simp [hbackslash]
  | escaped => simp [next]

theorem endsInEscape_iff : EndsInEscape line ↔ modeAfter .plain line = .escaped := by
  rcases List.eq_nil_or_concat line with rfl | ⟨before, c, rfl⟩
  · refine iff_of_false ?_ nofun
    rintro ⟨before, hnil, -⟩
    exact List.append_ne_nil_of_right_ne_nil _ (List.cons_ne_nil _ _) hnil.symm
  · rw [List.concat_eq_append, modeAfter_concat, Mode.next_eq_escaped_iff]
    constructor
    · rintro ⟨other, heq, hquoted⟩
      obtain ⟨rfl, hlast⟩ := List.append_inj' heq rfl
      exact ⟨hquoted, List.singleton_inj.mp hlast⟩
    · rintro ⟨hquoted, rfl⟩
      exact ⟨before, rfl, hquoted⟩

/-- Of the lines that fail, those that end in an escape are reported as such. -/
theorem endsInEscape_iff_of_tokenize (h : tokenize line = .error what) :
    EndsInEscape line ↔ what = .escape := by
  rw [endsInEscape_iff, modeAfter_of_scan_eq_error (map_eq_error_iff.mp h)]
  cases what with
  | quote => exact iff_of_false nofun nofun
  | escape => exact iff_of_true rfl rfl

theorem tokenize_eq_mapError_trimGaps (line : List Char) :
    tokenize line =
      (tokenize (trimGaps line)).mapError (leftOpen (line.rtakeWhile isSeparator)) := by
  have hlead : IsGap ((line.rdropWhile isSeparator).takeWhile isSeparator) :=
    fun c hc ↦ List.mem_takeWhile_imp hc
  have htrail : IsGap (line.rtakeWhile isSeparator) := fun c hc ↦ List.mem_rtakeWhile_imp hc
  have hline : (line.rdropWhile isSeparator).takeWhile isSeparator ++ trimGaps line ++
      line.rtakeWhile isSeparator = line := by
    unfold trimGaps
    rw [List.takeWhile_append_dropWhile, List.rdropWhile_append_rtakeWhile]
  calc tokenize line
    _ = tokenize ((line.rdropWhile isSeparator).takeWhile isSeparator ++ trimGaps line ++
          line.rtakeWhile isSeparator) := by rw [hline]
    _ = _ := by rw [tokenize_append_gap htrail, tokenize_gap_append hlead]

end Trim

/-- A line without the blanks at its two ends has the same tokens, and fails if the line does. The
failure is the same too, except that a blank behind the line may complete the escape in which the
line would end, which then leaves the quote open. -/
theorem tokenize_trimGaps (line : List Char) :
    (∀ tokens, tokenize line = .ok tokens ↔ tokenize (trimGaps line) = .ok tokens) ∧
      ∀ what trimmed, tokenize line = .error what → tokenize (trimGaps line) = .error trimmed →
        (what = trimmed ∨ what = .quote ∧ trimmed = .escape) ∧
          (what = .quote ∧ trimmed = .escape ↔
            EndsInEscape (trimGaps line) ∧ line.rtakeWhile isSeparator ≠ []) := by
  have hline := tokenize_eq_mapError_trimGaps line
  constructor
  · intro tokens
    rw [hline]
    cases tokenize (trimGaps line) <;> simp [Except.mapError]
  · intro what trimmed hwhat htrimmed
    rw [hline, htrimmed] at hwhat
    obtain rfl := Except.error.inj hwhat
    rw [endsInEscape_iff_of_tokenize htrimmed, leftOpen]
    cases trimmed with
    | quote => simp
    | escape => by_cases htrail : line.rtakeWhile isSeparator = [] <;> simp [htrail]

/-- A blank behind a backslash is an escaped blank until it is trimmed. -/
theorem tokenize_trimGaps_escapedBlank :
    EndsInEscape (trimGaps "\tsay \"a\\ ".toList) ∧
      "\tsay \"a\\ ".toList.rtakeWhile isSeparator ≠ [] :=
  ((tokenize_trimGaps "\tsay \"a\\ ".toList).2 .quote .escape (by decide) (by decide)).2.mp
    ⟨rfl, rfl⟩

/-! ### Texts that a line can hold -/

/-- A text that a line holds between quotes, and the blanks in front of it. -/
structure SpacedText where
  gap : List Char
  text : List Char
  deriving DecidableEq, Repr

def SpacedText.spelling (item : SpacedText) : List Char := item.gap ++ quote item.text

section Texts

variable {items : List SpacedText}

theorem scan_plain_spellings (hitems : ∀ item ∈ items, IsGap item.gap ∧ item.text ≠ [])
    (hgaps : ∀ item ∈ items, item.gap ≠ []) :
    scan .plain false (items.flatMap SpacedText.spelling) =
      .ok { later := items.map SpacedText.text } := by
  have htexts : ∀ text ∈ items.map SpacedText.text, (!text.isEmpty) = true := by
    rw [List.forall_mem_map]
    exact fun item hitem ↦ by simpa using (hitems item hitem).2
  have hread := scan_quoted_args (fun item hitem ↦ ⟨(hitems item hitem).1, hgaps item hitem⟩)
    fun (item : SpacedText) _ ↦ spells_flatMap_escape item.text
  rwa [List.filter_eq_self.mpr htexts] at hread

/-- Only in front of the first text there need not be a blank. -/
theorem tokenize_spellings (hitems : ∀ item ∈ items, IsGap item.gap ∧ item.text ≠ [])
    (hgaps : ∀ item ∈ items.tail, item.gap ≠ []) :
    tokenize (items.flatMap SpacedText.spelling) = .ok (items.map SpacedText.text) := by
  cases items with
  | nil => rfl
  | cons item items =>
    obtain ⟨hgap, htext⟩ := hitems item List.mem_cons_self
    have hlater := scan_plain_spellings
      (fun other hother ↦ hitems other (List.mem_cons_of_mem _ hother)) hgaps
    have hquote (rest : List Char) : scan .plain false (quote item.text ++ rest) =
        (·.prepend item.text) <$> scan .plain false rest := by
      rw [quote, List.cons_append, List.append_assoc, List.singleton_append,
        (spells_flatMap_escape item.text).scan_plain]
    rw [List.flatMap_cons, SpacedText.spelling, List.append_assoc, tokenize_gap_append hgap,
      tokenize, hquote, hlater]
    refine congrArg Except.ok ?_
    simp [Remaining.prepend, Remaining.toList, htext]

end Texts

/-- Texts that are not empty, each between quotes, are read back from a line that holds them in
order, with at least one blank between any two of them, and any blanks at the two ends. No other
lists of tokens can be read. -/
theorem tokenize_expresses_texts :
    (∀ (items : List SpacedText) (trail : List Char),
      (∀ item ∈ items, IsGap item.gap ∧ item.text ≠ []) →
        (∀ item ∈ items.tail, item.gap ≠ []) → IsGap trail →
          tokenize (items.flatMap SpacedText.spelling ++ trail) =
            .ok (items.map SpacedText.text)) ∧
      ∀ tokens : List (List Char),
        (∃ line, tokenize line = .ok tokens) ↔ ∀ token ∈ tokens, token ≠ [] := by
  constructor
  · intro items trail hitems hgaps htrail
    rw [tokenize_append_gap htrail, tokenize_spellings hitems hgaps]
    rfl
  · refine fun tokens ↦ ⟨fun ⟨line, hline⟩ ↦ ne_nil_of_mem_tokenize hline, fun htokens ↦ ?_⟩
    have hgap : IsGap [' '] := by decide
    have hitems : ∀ item ∈ tokens.map (SpacedText.mk [' ']), IsGap item.gap ∧ item.text ≠ [] := by
      rw [List.forall_mem_map]
      exact fun token htoken ↦ ⟨hgap, htokens token htoken⟩
    have hgaps : ∀ item ∈ tokens.map (SpacedText.mk [' ']), item.gap ≠ [] := by
      rw [List.forall_mem_map]
      exact fun token _ ↦ List.cons_ne_nil _ _
    have hread := tokenize_spellings hitems fun item hitem ↦ hgaps item (List.mem_of_mem_tail hitem)
    rw [List.map_map] at hread
    exact ⟨_, hread.trans (congrArg Except.ok (List.map_id tokens))⟩

/-- Two dashes, a blank, quote marks, a backslash and the end of a line, all within tokens. -/
theorem tokenize_expresses_texts_dashes :
    tokenize "\t\"-- \"\t  \"\\\"\\\\\r\n\" ".toList = .ok ["-- ".toList, "\"\\\r\n".toList] :=
  tokenize_expresses_texts.1
    [{ gap := ['\t'], text := "-- ".toList }, { gap := "\t  ".toList, text := "\"\\\r\n".toList }]
    [' '] (by decide) (by decide) (by decide)

end Tokens

end CommandScript
