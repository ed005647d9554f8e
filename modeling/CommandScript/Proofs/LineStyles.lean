import CommandScript.Proofs.DecodingCuts
import CommandScript.Proofs.LineFraming
import CommandScript.Proofs.ScriptPieces
/-!
# One script in several styles

The same lines mean the same however their ends are written: with LF, with CR LF, with a mixture of
the two behind a first line with LF, or with CR where the second line is empty
(`parseAs_eq_of_lines`). With a single terminator between the lines the stream settles on its ending
behind the first line and reads as the lines (`LineStream.reads_intercalate`). In a mixture it
settles on LF, so that a CR stays at the end of a line; there it is white space and is trimmed off,
wherever else the line leaves off (`Script.commandOfLine_concat`).
-/

set_option autoImplicit false
set_option relaxedAutoImplicit false

namespace CommandScript

/-! ### Texts of lines -/

section Intercalate

variable {α : Type} (separator : List α)

/-- A separator behind each of some lines is one between them and an empty line at the end. -/
theorem intercalate_concat_nil (lines : List (List α)) :
    separator.intercalate (lines ++ [[]]) = lines.flatMap (· ++ separator) := by
  induction lines with
  | nil => rfl
  | cons line lines ih =>
    have hne := List.append_ne_nil_of_right_ne_nil lines (List.cons_ne_nil ([] : List α) [])
    rw [List.cons_append, List.intercalate_cons_of_ne_nil hne, ih, List.flatMap_cons]

end Intercalate

namespace LineStream

open LineEnding

variable {start ending : LineEnding} {line rest : Bytes}

/-- A line ends where the terminator stands of the ending that a stream has settled on or settles on
there. -/
theorem next?_of_terminator (hending : ending ≠ .unset)
    (hstart : start = ending ∨
      start = .unset ∧ ending.signal <+: ending.terminator ++ rest)
    (hline : start.Unbroken line (ending.terminator ++ rest)) :
    LineStream.next? { ending := start, rest := line ++ (ending.terminator ++ rest) } =
      some (line, { ending, rest }) := by
  obtain ⟨b, tail, hterminator⟩ := List.exists_cons_of_ne_nil (terminator_ne_nil hending)
  have hbytes : ending.terminator ++ rest = b :: (tail ++ rest) := by
    rw [hterminator, List.cons_append]
  have hbreak : start.breakAt? b (tail ++ rest) = some (ending, rest) := by
    rcases hstart with rfl | ⟨rfl, hsignal⟩
    · exact (breakAt?_eq_some_iff hending).mpr ⟨rfl, hbytes.symm⟩
    · rw [hbytes] at hsignal
      exact breakAt?_unset_eq_some_iff.mpr ⟨hending, hsignal, hbytes.symm⟩
  rw [hbytes] at hline ⊢
  exact next?_of_breakAt? hline hbreak

/-- A stream that has settled on an ending reads as the lines between its terminators. -/
theorem reads_intercalate_of_settled (hending : ending ≠ .unset) {lines : List Bytes}
    (hlines : ∀ line ∈ lines, ∀ rest, ending.Unbroken line rest) (hne : lines ≠ []) :
    LineStream.Reads { ending, rest := ending.terminator.intercalate lines } lines := by
  induction lines with
  | nil => exact absurd rfl hne
  | cons line lines ih =>
    have hline := hlines line List.mem_cons_self
    cases lines with
    | nil =>
      rw [List.intercalate_singleton]
      exact Reads.last (hline [])
    | cons next others =>
      have hreads := ih (fun other hother ↦ hlines other (List.mem_cons_of_mem _ hother))
        (List.cons_ne_nil next others)
      rw [List.intercalate_cons_cons, List.append_assoc]
      exact hreads.cons (next?_of_terminator hending (Or.inl rfl) (hline _))

/-- Where only later lines can hold a CR or an LF, and the first terminator is the signal that comes
first, a stream reads as the lines between the terminators. -/
theorem reads_intercalate (hending : ending ≠ .unset) {first : Bytes} {later : List Bytes}
    (hcr : carriageReturn ∉ first) (hlf : lineFeed ∉ first)
    (hlater : ∀ line ∈ later, ∀ rest, ending.Unbroken line rest)
    (hsignal : ending.signal <+: ending.terminator ++ ending.terminator.intercalate later) :
    LineStream.Reads
      { ending := .unset, rest := ending.terminator.intercalate (first :: later) }
      (first :: later) := by
  cases later with
  | nil =>
    rw [List.intercalate_singleton]
    exact Reads.last (unbroken_of_not_mem hcr hlf _ _)
  | cons next others =>
    have hreads := reads_intercalate_of_settled hending hlater (List.cons_ne_nil next others)
    rw [List.intercalate_cons_cons, List.append_assoc]
    exact hreads.cons (next?_of_terminator hending (Or.inr ⟨rfl, hsignal⟩)
      (unbroken_of_not_mem hcr hlf _ _))

theorem skipByteOrderMark_intercalate (hending : ending ≠ .unset) (first : Bytes)
    (later : List Bytes) :
    skipByteOrderMark (ending.terminator.intercalate (first :: later)) =
      ending.terminator.intercalate (skipByteOrderMark first :: later) := by
  cases later with
  | nil => rw [List.intercalate_singleton, List.intercalate_singleton]
  | cons next others =>
    obtain ⟨b, tail, hterminator, hb⟩ : ∃ b tail, ending.terminator = b :: tail ∧
        b ∉ byteOrderMark := by
      cases ending with
      | unset => exact absurd rfl hending
      | cr | lf | crLf => exact ⟨_, _, rfl, by decide⟩
    simp only [List.intercalate_cons_cons, hterminator, List.append_assoc, List.cons_append]
    exact skipByteOrderMark_append_cons hb first _

end LineStream

namespace Script

open LineEnding LineStream

variable {policy : NamePolicy} {ending : LineEnding}

/-- Lines as a script is read by them: a byte-order mark in front of the first is no content. -/
def contentLines : List Bytes → List Bytes
  | [] => []
  | first :: later => skipByteOrderMark first :: later

theorem parse_intercalate (hending : ending ≠ .unset) {lines : List Bytes}
    (hfirst : ∀ line ∈ lines.head?, carriageReturn ∉ line ∧ lineFeed ∉ line)
    (hlater : ∀ line ∈ lines.tail, ∀ rest, ending.Unbroken line rest)
    (hsignal : ending.signal <+:
      ending.terminator ++ ending.terminator.intercalate lines.tail) :
    parse policy (ending.terminator.intercalate lines) =
      commandsOfPieces policy (contentLines lines) := by
  cases lines with
  | nil => exact parse_of_reads (Or.inl (congrArg (List.map Prod.fst) (lines_nil .unset)).symm)
  | cons first later =>
    obtain ⟨hcr, hlf⟩ := hfirst first rfl
    refine parse_of_reads ?_
    rw [LineStream.ofBytes, skipByteOrderMark_intercalate hending]
    exact reads_intercalate hending (fun hmem ↦ hcr (skipByteOrderMark_subset first hmem))
      (fun hmem ↦ hlf (skipByteOrderMark_subset first hmem)) hlater hsignal

theorem contentLines_concat_nil (lines : List Bytes) :
    contentLines (lines ++ [[]]) = contentLines lines ++ [[]] := by
  cases lines <;> rfl

/-- Lines that hold no CR and no LF, and their ends written in one way. -/
theorem parse_intercalate_of_not_mem {lines : List Bytes} (hending : ending ≠ .unset)
    (h : ∀ line ∈ lines, carriageReturn ∉ line ∧ lineFeed ∉ line)
    (hsignal : ending.signal <+:
      ending.terminator ++ ending.terminator.intercalate lines.tail) :
    parse policy (ending.terminator.intercalate lines) =
      commandsOfPieces policy (contentLines lines) := by
  refine parse_intercalate hending (fun line hline ↦ h line (List.mem_of_mem_head? hline))
    (fun line hline rest ↦ ?_) hsignal
  obtain ⟨hcr, hlf⟩ := h line (List.mem_of_mem_tail hline)
  exact unbroken_of_not_mem hcr hlf ending rest

theorem parse_flatMap_of_not_mem {lines : List Bytes} (hending : ending ≠ .unset)
    (h : ∀ line ∈ lines, carriageReturn ∉ line ∧ lineFeed ∉ line)
    (hsignal : ending.signal <+:
      ending.terminator ++ ending.terminator.intercalate (lines ++ [[]]).tail) :
    parse policy (lines.flatMap (· ++ ending.terminator)) =
      commandsOfPieces policy (contentLines lines) := by
  have hpieces : ∀ line ∈ lines ++ [[]], carriageReturn ∉ line ∧ lineFeed ∉ line := by
    intro line hline
    rcases List.mem_append.mp hline with hline | hline
    · exact h line hline
    · rw [List.mem_singleton.mp hline]
      exact ⟨List.not_mem_nil, List.not_mem_nil⟩
  rw [← intercalate_concat_nil, parse_intercalate_of_not_mem hending hpieces hsignal,
    contentLines_concat_nil, commandsOfPieces_concat_nil]

/-- With an empty second line, CR behind each of the lines: the CR behind the first stands in front
of another. -/
theorem parse_flatMap_of_second_empty {lines : List Bytes}
    (h : ∀ line ∈ lines, carriageReturn ∉ line ∧ lineFeed ∉ line) (hsecond : lines[1]? = some []) :
    parse policy (lines.flatMap (· ++ [carriageReturn])) =
      commandsOfPieces policy (contentLines lines) := by
  obtain ⟨first, second, others, rfl⟩ :
      ∃ first second others, lines = first :: second :: others := by
    cases lines with
    | nil => cases hsecond
    | cons first later =>
      cases later with
      | nil => cases hsecond
      | cons second others => exact ⟨first, second, others, rfl⟩
  obtain rfl : second = [] := by simpa using hsecond
  have hne := List.append_ne_nil_of_right_ne_nil others (List.cons_ne_nil ([] : Bytes) [])
  refine @parse_flatMap_of_not_mem policy .cr _ (by decide) h ?_
  rw [List.cons_append, List.tail_cons, List.cons_append, List.intercalate_cons_of_ne_nil hne]
  exact List.prefix_append [carriageReturn, carriageReturn] _

/-! ### CR in front of LF -/

/-- White space at its end does not change a line. -/
theorem trim_concat {c : Char} (hc : isBlank c = true) (text : List Char) :
    trim (text ++ [c]) = trim text := by
  have hlast : [c].dropWhile isBlank = [] := by
    rw [List.dropWhile_cons_of_pos hc, List.dropWhile_nil]
  rw [trim, trim, List.dropWhile_append]
  split
  · next hnil => rw [hlast, List.isEmpty_iff.mp hnil]
  · rw [List.reverse_append, List.reverse_singleton, List.singleton_append,
      List.dropWhile_cons_of_pos hc]

/-- A CR behind a line is no part of what the line asks for, even where the line ends within a
character or a quoted text. -/
theorem commandOfLine_concat (line : Bytes) :
    commandOfLine policy (Utf8.decode (line ++ [carriageReturn])) =
      commandOfLine policy (Utf8.decode line) := by
  have hdecode : (Utf8.decode (line ++ [carriageReturn])).toList =
      (Utf8.decode line).toList ++ ['\r'] :=
    Utf8.decode_append_cons line (by decide) []
  rw [commandOfLine, commandOfLine, hdecode, trim_concat (by decide)]

/-- The text of lines, each with the terminator of an ending of its own. -/
def written (lines : List (Bytes × LineEnding)) : Bytes :=
  lines.flatMap fun line ↦ line.1 ++ line.2.terminator

/-- A line with LF or CR LF behind it, without that LF. -/
def beforeLineFeed (line : Bytes × LineEnding) : Bytes := line.1 ++ line.2.terminator.dropLast

theorem commandOfLine_beforeLineFeed {line : Bytes × LineEnding}
    (h : line.2 = .lf ∨ line.2 = .crLf) :
    commandOfLine policy (Utf8.decode (beforeLineFeed line)) =
      commandOfLine policy (Utf8.decode line.1) := by
  rcases h with hlf | hcrlf
  · rw [beforeLineFeed, hlf, terminator, List.dropLast_singleton, List.append_nil]
  · rw [beforeLineFeed, hcrlf]
    exact commandOfLine_concat line.1

theorem lineFeed_not_mem_beforeLineFeed {line : Bytes × LineEnding}
    (h : line.2 = .lf ∨ line.2 = .crLf) (hlf : lineFeed ∉ line.1) :
    lineFeed ∉ beforeLineFeed line := by
  have hne : lineFeed ≠ carriageReturn := lineFeed_ne_carriageReturn
  rcases h with hending | hending <;> simp [beforeLineFeed, hending, terminator, hlf, hne]

theorem written_append_eq_intercalate {lines : List (Bytes × LineEnding)}
    (h : ∀ line ∈ lines, line.2 = .lf ∨ line.2 = .crLf) (last : Bytes) :
    written lines ++ last =
      LineEnding.lf.terminator.intercalate (lines.map beforeLineFeed ++ [last]) := by
  induction lines with
  | nil =>
    rw [List.map_nil, List.nil_append, List.intercalate_singleton]
    rfl
  | cons line lines ih =>
    have hne := List.append_ne_nil_of_right_ne_nil (lines.map beforeLineFeed)
      (List.cons_ne_nil last [])
    have hline : line.1 ++ line.2.terminator = beforeLineFeed line ++ LineEnding.lf.terminator := by
      rcases h line List.mem_cons_self with hending | hending <;>
        simp [beforeLineFeed, hending, terminator]
    have hlater := ih fun other hother ↦ h other (List.mem_cons_of_mem _ hother)
    rw [List.map_cons, List.cons_append, List.intercalate_cons_of_ne_nil hne, ← hline, ← hlater]
    change (line.1 ++ line.2.terminator ++ written lines) ++ last = _
    exact List.append_assoc _ _ _

theorem unbroken_lf_of_not_mem {line : Bytes} (hlf : lineFeed ∉ line) (rest : Bytes) :
    LineEnding.lf.Unbroken line rest := by
  rintro before b after rfl
  have hne : b ≠ lineFeed := by
    rintro rfl
    simp at hlf
  exact if_neg hne

/-- Behind a first line with LF, any line may have CR LF instead, and the last nothing at all. -/
theorem parse_mixture {first last : Bytes} {lines : List (Bytes × LineEnding)}
    (hfirst : carriageReturn ∉ first ∧ lineFeed ∉ first)
    (hlines : ∀ line ∈ lines, lineFeed ∉ line.1) (hlast : lineFeed ∉ last)
    (hendings : ∀ line ∈ lines, line.2 = .lf ∨ line.2 = .crLf) :
    parse policy (first ++ lineFeed :: (written lines ++ last)) =
      commandsOfPieces policy (contentLines (first :: (lines.map Prod.fst ++ [last]))) := by
  have htext : first ++ lineFeed :: (written lines ++ last) =
      LineEnding.lf.terminator.intercalate (first :: (lines.map beforeLineFeed ++ [last])) := by
    have hne := List.append_ne_nil_of_right_ne_nil (lines.map beforeLineFeed)
      (List.cons_ne_nil last [])
    rw [written_append_eq_intercalate hendings, List.intercalate_cons_of_ne_nil hne,
      List.append_assoc]
    rfl
  have hlater : ∀ line ∈ lines.map beforeLineFeed ++ [last], ∀ rest,
      LineEnding.lf.Unbroken line rest := by
    intro line hline rest
    refine unbroken_lf_of_not_mem ?_ rest
    rcases List.mem_append.mp hline with hline | hline
    · obtain ⟨other, hother, rfl⟩ := List.mem_map.mp hline
      exact lineFeed_not_mem_beforeLineFeed (hendings other hother) (hlines other hother)
    · rwa [List.mem_singleton.mp hline]
  have hpieces : commandsOfPieces policy (lines.map beforeLineFeed) =
      commandsOfPieces policy (lines.map Prod.fst) := by
    rw [commandsOfPieces, commandsOfPieces, List.map_map, List.map_map]
    exact commandsOfLines_map_congr fun line hline ↦
      commandOfLine_beforeLineFeed (hendings line hline)
  have hparse := @parse_intercalate policy .lf (by decide)
    (first :: (lines.map beforeLineFeed ++ [last])) (by simpa using hfirst) hlater
    (List.prefix_append _ _)
  rw [htext, hparse, contentLines, contentLines, ← List.cons_append, ← List.cons_append,
    commandsOfPieces_append, commandsOfPieces_append, ← List.singleton_append,
    commandsOfPieces_append, hpieces, ← commandsOfPieces_append]
  rfl

/-- The same where the last line has its end as well. -/
theorem parse_mixture_ended {first : Bytes} {lines : List (Bytes × LineEnding)}
    (hfirst : carriageReturn ∉ first ∧ lineFeed ∉ first)
    (hlines : ∀ line ∈ lines, lineFeed ∉ line.1)
    (hendings : ∀ line ∈ lines, line.2 = .lf ∨ line.2 = .crLf) :
    parse policy (first ++ lineFeed :: written lines) =
      commandsOfPieces policy (contentLines (first :: lines.map Prod.fst)) := by
  have hmixture := @parse_mixture policy first [] lines hfirst hlines List.not_mem_nil hendings
  rwa [List.append_nil, ← List.cons_append, contentLines_concat_nil,
    commandsOfPieces_concat_nil] at hmixture

end Script

/-- Lines that hold no CR and no LF mean what they mean one by one in every style, whether they are
refused or not: with LF behind each of them or with CR LF, with LF behind the first and either
behind each of the others, and with CR where the second line is empty. Behind the last line nothing
need stand where LF, CR LF or both are used. -/
theorem parseAs_eq_of_lines (policy : NamePolicy) (source : String) {lines : List Bytes}
    (h : ∀ line ∈ lines, carriageReturn ∉ line ∧ lineFeed ∉ line) :
    let read := Script.parseAs policy source (lines.flatMap (· ++ [lineFeed]))
    read = (Script.commandsOfPieces policy (Script.contentLines lines)).mapError
        (Failure.badLine source) ∧
      Script.parseAs policy source (lines.flatMap (· ++ [carriageReturn, lineFeed])) = read ∧
      (∀ (first : Bytes) (later : List (Bytes × LineEnding)),
        lines = first :: later.map Prod.fst →
        (∀ line ∈ later, line.2 = .lf ∨ line.2 = .crLf) →
          Script.parseAs policy source (first ++ lineFeed :: Script.written later) = read) ∧
      (lines[1]? = some [] →
        Script.parseAs policy source (lines.flatMap (· ++ [carriageReturn])) = read) ∧
      Script.parseAs policy source ([lineFeed].intercalate lines) = read ∧
      Script.parseAs policy source ([carriageReturn, lineFeed].intercalate lines) = read ∧
      ∀ (first : Bytes) (later : List (Bytes × LineEnding)) (last : Bytes),
        lines = first :: (later.map Prod.fst ++ [last]) →
        (∀ line ∈ later, line.2 = .lf ∨ line.2 = .crLf) →
          Script.parseAs policy source (first ++ lineFeed :: (Script.written later ++ last)) =
            read := by
  intro read
  have hfeeds : Script.parse policy (lines.flatMap (· ++ [lineFeed])) =
      Script.commandsOfPieces policy (Script.contentLines lines) :=
    @Script.parse_flatMap_of_not_mem policy .lf lines (by decide) h (List.prefix_append _ _)
  have hread : ∀ content, Script.parse policy content =
      Script.commandsOfPieces policy (Script.contentLines lines) →
        Script.parseAs policy source content = read := by
    intro content hcontent
    unfold read
    rw [Script.parseAs, Script.parseAs, hcontent, hfeeds]
  refine ⟨congrArg (Except.mapError (Failure.badLine source)) hfeeds, hread _ ?_,
    fun first later hlines hendings ↦ hread _ ?_, fun hsecond ↦ hread _ ?_, hread _ ?_, hread _ ?_,
    fun first later last hlines hendings ↦ hread _ ?_⟩
  · exact @Script.parse_flatMap_of_not_mem policy .crLf lines (by decide) h
      (List.prefix_append _ _)
  · rw [hlines] at h ⊢
    obtain ⟨hfirst, hlater⟩ := List.forall_mem_cons.mp h
    exact Script.parse_mixture_ended hfirst
      (fun line hline ↦ (hlater _ (List.mem_map_of_mem hline)).2) hendings
  · exact Script.parse_flatMap_of_second_empty h hsecond
  · exact @Script.parse_intercalate_of_not_mem policy .lf lines (by decide) h
      (List.prefix_append _ _)
  · exact @Script.parse_intercalate_of_not_mem policy .crLf lines (by decide) h
      (List.prefix_append _ _)
  · rw [hlines] at h ⊢
    obtain ⟨hfirst, hlater⟩ := List.forall_mem_cons.mp h
    refine Script.parse_mixture hfirst (fun line hline ↦ ?_) ?_ hendings
    · exact (hlater _ (List.mem_append_left _ (List.mem_map_of_mem hline))).2
    · exact (hlater _ (List.mem_append_right _ List.mem_cons_self)).2

/-- A first line behind a byte-order mark. -/
def markedLine : Bytes := LineStream.byteOrderMark ++ Utf8.encode "go"

/-- A last line that cuts off a character. -/
def truncatedLine : Bytes := Utf8.encode "say " ++ [0xE2, 0x82]

theorem parseAs_eq_of_lines_marked_truncated :
    let lines := [markedLine, [], truncatedLine]
    let commands : Except Failure (List Command) :=
      .ok [{ name := "go", args := [] }, { name := "say", args := ["\uFFFD"] }]
    Script.parseAs .strict "s" (lines.flatMap (· ++ [lineFeed])) = commands ∧
      Script.parseAs .strict "s" (lines.flatMap (· ++ [carriageReturn, lineFeed])) = commands ∧
      Script.parseAs .strict "s" (markedLine ++ lineFeed ::
        Script.written [([], .lf), (truncatedLine, .crLf)]) = commands ∧
      Script.parseAs .strict "s" (lines.flatMap (· ++ [carriageReturn])) = commands ∧
      Script.parseAs .strict "s" (markedLine ++ lineFeed ::
        (Script.written [([], .crLf)] ++ truncatedLine)) = commands := by
  intro lines commands
  obtain ⟨hread, hcrlf, hmixture, hcr, -, -, hopen⟩ :=
    @parseAs_eq_of_lines .strict "s" lines (by decide)
  have hcommands : (Script.commandsOfPieces .strict (Script.contentLines lines)).mapError
      (Failure.badLine "s") = commands := by
    decide
  rw [hread, hcommands] at hcrlf hmixture hcr hopen
  exact ⟨hread.trans hcommands, hcrlf,
    hmixture _ [([], .lf), (truncatedLine, .crLf)] rfl (by decide), hcr rfl,
    hopen _ [([], .crLf)] _ rfl (by decide)⟩

end CommandScript
