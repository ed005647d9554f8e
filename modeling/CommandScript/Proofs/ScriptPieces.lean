import CommandScript.Proofs.ScriptText
import Mathlib.Data.List.TakeWhile
/-!
# Scripts piece by piece

The lines of a script mean what they mean wherever they stand: the commands on lines are those on
the first of them followed by those on the others, unless a line is refused, and then the first one
decides (`Script.commandsOfLines_append`). A stream reads as certain pieces if these are its lines,
but for an empty piece at the end, which means nothing (`LineStream.Reads`). Without CR, content
reads as what stands between its LFs (`LineStream.reads_splitOn`), behind a byte-order mark that may
open it. So two such contents with an LF between them are read one after the other, and lines that
say nothing can be put in front of any line (`parseAs_append_and_pads`).
-/

set_option autoImplicit false
set_option relaxedAutoImplicit false

namespace CommandScript

/-! ### Commands on lines -/

namespace Script

variable {policy : NamePolicy}

theorem commandsOfLines_append (first later : List String) :
    commandsOfLines policy (first ++ later) = do
      let commands ← commandsOfLines policy first
      let others ← commandsOfLines policy later
      return commands ++ others := by
  induction first with
  | nil => exact (bind_pure _).symm
  | cons line first ih =>
    rw [List.cons_append, commandsOfLines, commandsOfLines, ih]
    simp only [bind_assoc, pure_bind, List.append_assoc]

/-- Lines that ask for the same commands one by one do so together. -/
theorem commandsOfLines_map_congr {α : Type} {line other : α → String} {items : List α}
    (h : ∀ item ∈ items,
      commandOfLine policy (line item) = commandOfLine policy (other item)) :
    commandsOfLines policy (items.map line) = commandsOfLines policy (items.map other) := by
  induction items with
  | nil => rfl
  | cons item items ih =>
    rw [List.map_cons, List.map_cons, commandsOfLines, commandsOfLines, h item List.mem_cons_self,
      ih fun other hother ↦ h other (List.mem_cons_of_mem _ hother)]

/-- The commands on pieces of a script's content, each of them a line. -/
def commandsOfPieces (policy : NamePolicy) (pieces : List Bytes) :
    Except LineIssue (List Command) :=
  commandsOfLines policy (pieces.map Utf8.decode)

theorem commandsOfPieces_append (first later : List Bytes) :
    commandsOfPieces policy (first ++ later) = do
      let commands ← commandsOfPieces policy first
      let others ← commandsOfPieces policy later
      return commands ++ others := by
  rw [commandsOfPieces, List.map_append, commandsOfLines_append]
  rfl

/-! ### Lines that say nothing -/

/-- A line of white space only, or one on which two dashes come first. -/
def IsSilent (line : Bytes) : Prop :=
  (∀ c ∈ (Utf8.decode line).toList, isBlank c = true) ∨
    ['-', '-'] <+: trim (Utf8.decode line).toList

theorem isSilent_nil : IsSilent [] := Or.inl fun _ h ↦ nomatch h

theorem trim_eq_nil {text : List Char} (h : ∀ c ∈ text, isBlank c = true) : trim text = [] := by
  rw [trim, List.dropWhile_eq_nil_iff.mpr h, List.reverse_nil, List.dropWhile_nil, List.reverse_nil]

theorem tokenize_dashes (rest : List Char) : tokenize ('-' :: '-' :: rest) = .ok [] :=
  rfl

/-- A line that says nothing is not refused either, whatever stands behind its dashes. -/
theorem commandOfLine_of_isSilent {line : Bytes} (h : IsSilent line) :
    commandOfLine policy (Utf8.decode line) = .ok none := by
  rcases h with hblank | ⟨rest, hdashes⟩
  · rw [commandOfLine, trim_eq_nil hblank]
    rfl
  · rw [commandOfLine, ← hdashes, List.cons_append, List.cons_append, List.nil_append,
      tokenize_dashes]
    rfl

theorem commandsOfPieces_cons_of_isSilent {line : Bytes} (h : IsSilent line)
    (later : List Bytes) :
    commandsOfPieces policy (line :: later) = commandsOfPieces policy later := by
  rw [commandsOfPieces, List.map_cons, commandsOfLines, commandOfLine_of_isSilent h,
    commandsOfPieces]
  cases commandsOfLines policy (later.map Utf8.decode) <;> rfl

theorem commandsOfPieces_append_cons_of_isSilent {line : Bytes} (h : IsSilent line)
    (first later : List Bytes) :
    commandsOfPieces policy (first ++ line :: later) =
      commandsOfPieces policy (first ++ later) := by
  rw [commandsOfPieces_append, commandsOfPieces_cons_of_isSilent h, ← commandsOfPieces_append]

theorem commandsOfPieces_concat_nil (pieces : List Bytes) :
    commandsOfPieces policy (pieces ++ [[]]) = commandsOfPieces policy pieces := by
  rw [commandsOfPieces_append_cons_of_isSilent isSilent_nil, List.append_nil]

end Script

/-! ### Pieces of a stream -/

namespace LineStream

open LineEnding

variable {start ending : LineEnding} {line rest : Bytes}

/-- The pieces are the lines that are left, but for an empty piece at the end. -/
def Reads (stream : LineStream) (pieces : List Bytes) : Prop :=
  pieces = stream.lines.map Prod.fst ∨ pieces = stream.lines.map Prod.fst ++ [[]]

theorem Reads.last (h : start.Unbroken line []) :
    Reads { ending := start, rest := line } [line] := by
  by_cases hline : line = []
  · subst hline
    refine Or.inr ?_
    rw [lines_nil]
    rfl
  · refine Or.inl ?_
    rw [lines_of_next?_eq_some (next?_of_unbroken hline h), lines_nil]
    rfl

theorem Reads.cons {later : LineStream} {pieces : List Bytes} {stream : LineStream}
    (h : later.Reads pieces) (hnext : stream.next? = some (line, later)) :
    stream.Reads (line :: pieces) := by
  rcases h with rfl | rfl
  · refine Or.inl ?_
    rw [lines_of_next?_eq_some hnext, List.map_cons]
  · refine Or.inr ?_
    rw [lines_of_next?_eq_some hnext, List.map_cons, List.cons_append]

theorem lineFeed_not_mem_of_unbroken (hstart : start = .unset ∨ start = .lf)
    (h : start.Unbroken line rest) : lineFeed ∉ line := by
  intro hmem
  obtain ⟨before, after, rfl⟩ := List.append_of_mem hmem
  have hnone := h before lineFeed after rfl
  rcases hstart with rfl | rfl
  · cases hnone
  · cases hnone

/-- Without CR, what is left reads as what stands between its LFs. -/
theorem reads_splitOn {stream : LineStream} (hending : stream.ending = .unset ∨ stream.ending = .lf)
    (hcr : carriageReturn ∉ stream.rest) : stream.Reads (stream.rest.splitOn lineFeed) := by
  induction stream using lines.induct with
  | case1 stream hnone =>
    rw [(next?_eq_none_iff stream).mp hnone, List.splitOn_nil]
    refine Or.inr ?_
    rw [lines_of_next?_eq_none hnone]
    rfl
  | case2 stream line later hsome ih =>
    rcases next?_eq_some_cases hsome with
      ⟨hrest, hline, hunbroken, rfl⟩ | ⟨hlater, -, hrest, hunbroken, -⟩
    · have hlf := lineFeed_not_mem_of_unbroken hending hunbroken
      rw [hrest, List.splitOn_eq_singleton hlf]
      refine Or.inl ?_
      rw [lines_of_next?_eq_some hsome, lines_nil]
      rfl
    · have hlf := lineFeed_not_mem_of_unbroken hending hunbroken
      rw [hrest] at hcr
      -- Of the terminators, the one of LF alone holds no CR.
      have hsettled : later.ending = .lf := by
        cases hcase : later.ending with
        | unset => exact absurd hcase hlater
        | lf => rfl
        | cr | crLf => simp [hcase, terminator] at hcr
      have hlatercr : carriageReturn ∉ later.rest := fun hmem ↦
        hcr (List.mem_append_right _ (List.mem_append_right _ hmem))
      have hsplit : stream.rest.splitOn lineFeed = line :: later.rest.splitOn lineFeed := by
        rw [hrest, hsettled, terminator, List.singleton_append, List.splitOn_append_cons_self,
          List.splitOn_eq_singleton hlf, List.singleton_append]
      rw [hsplit]
      exact (ih (Or.inr hsettled) hlatercr).cons hsome

/-! ### The byte-order mark -/

/-- The mark is U+FEFF, encoded. -/
theorem byteOrderMark_eq : byteOrderMark = String.utf8EncodeChar '\uFEFF' := by decide

/-- A byte that is not in the mark ends the part of a stream where the mark can be. -/
theorem byteOrderMark_prefix_of_append_cons {b : UInt8} (hb : b ∉ byteOrderMark)
    (h : byteOrderMark <+: line ++ b :: rest) : byteOrderMark <+: line := by
  rcases List.prefix_or_prefix_of_prefix h (List.prefix_append line (b :: rest)) with
    hmark | ⟨tail, htail⟩
  · exact hmark
  · cases tail with
    | nil =>
      rw [List.append_nil] at htail
      exact ⟨[], by rw [List.append_nil, htail]⟩
    | cons c tail =>
      rw [← htail, List.prefix_append_right_inj] at h
      obtain ⟨others, hothers⟩ := h
      obtain ⟨rfl, -⟩ := List.cons.inj hothers
      exact absurd (htail ▸ List.mem_append_right line List.mem_cons_self) hb

theorem skipByteOrderMark_of_marked (rest : Bytes) :
    skipByteOrderMark (byteOrderMark ++ rest) = rest :=
  rfl

theorem skipByteOrderMark_of_unmarked {bytes : Bytes} (h : ¬ byteOrderMark <+: bytes) :
    skipByteOrderMark bytes = bytes := by
  rw [← List.isPrefixOf_iff_prefix] at h
  exact if_neg h

theorem skipByteOrderMark_append_cons {b : UInt8} (hb : b ∉ byteOrderMark) (line rest : Bytes) :
    skipByteOrderMark (line ++ b :: rest) = skipByteOrderMark line ++ b :: rest := by
  by_cases h : byteOrderMark <+: line
  · obtain ⟨tail, rfl⟩ := h
    rw [List.append_assoc, skipByteOrderMark_of_marked, skipByteOrderMark_of_marked]
  · have hlonger : ¬ byteOrderMark <+: line ++ b :: rest := fun hlong ↦
      h (byteOrderMark_prefix_of_append_cons hb hlong)
    rw [skipByteOrderMark_of_unmarked h, skipByteOrderMark_of_unmarked hlonger]

theorem skipByteOrderMark_subset (bytes : Bytes) : skipByteOrderMark bytes ⊆ bytes := by
  rw [skipByteOrderMark]
  split
  · exact List.drop_subset _ _
  · exact List.Subset.refl _

end LineStream

namespace Script

open LineStream

variable {policy : NamePolicy}

/-- What a stream reads as decides the commands of the script. -/
theorem parse_of_reads {content : Bytes} {pieces : List Bytes}
    (h : (LineStream.ofBytes content).Reads pieces) :
    parse policy content = commandsOfPieces policy pieces := by
  have hlines : parse policy content =
      commandsOfPieces policy ((LineStream.ofBytes content).lines.map Prod.fst) := by
    rw [parse, lines, commandsOfPieces, List.map_map]
    rfl
  rcases h with rfl | rfl
  · exact hlines
  · rw [hlines, commandsOfPieces_concat_nil]

/-- Without CR, LF alone parts the lines of a script. -/
theorem parse_eq_of_not_mem {content : Bytes} (hcr : carriageReturn ∉ content) :
    parse policy content =
      commandsOfPieces policy ((skipByteOrderMark content).splitOn lineFeed) := by
  have hskipped := mt (fun hmem ↦ skipByteOrderMark_subset content hmem) hcr
  exact parse_of_reads (@reads_splitOn (LineStream.ofBytes content) (Or.inl rfl) hskipped)

/-- A script of one line gives what the line gives. -/
theorem parse_line {line : Bytes} (hcr : carriageReturn ∉ line) (hlf : lineFeed ∉ line) :
    parse policy line =
      Option.toList <$> commandOfLine policy (Utf8.decode (skipByteOrderMark line)) := by
  have hskipped := mt (fun hmem ↦ skipByteOrderMark_subset line hmem) hlf
  rw [parse_eq_of_not_mem hcr, List.splitOn_eq_singleton hskipped, commandsOfPieces,
    List.map_singleton, commandsOfLines, commandsOfLines]
  cases commandOfLine policy (Utf8.decode (skipByteOrderMark line)) with
  | error issue => rfl
  | ok command => exact congrArg Except.ok (List.append_nil _)

theorem lineFeed_not_mem_byteOrderMark : lineFeed ∉ byteOrderMark := by decide

/-- Two contents with an LF between them are read one after the other. -/
theorem parse_append_cons {first later : Bytes} (hfirst : carriageReturn ∉ first)
    (hlater : carriageReturn ∉ later) (hmark : ¬ byteOrderMark <+: later) :
    parse policy (first ++ lineFeed :: later) = do
      let commands ← parse policy first
      let others ← parse policy later
      return commands ++ others := by
  have hcr : carriageReturn ∉ first ++ lineFeed :: later := by
    rw [List.mem_append, List.mem_cons]
    exact not_or.mpr ⟨hfirst, not_or.mpr ⟨by decide, hlater⟩⟩
  rw [parse_eq_of_not_mem hcr, parse_eq_of_not_mem hfirst, parse_eq_of_not_mem hlater,
    skipByteOrderMark_append_cons lineFeed_not_mem_byteOrderMark,
    skipByteOrderMark_of_unmarked hmark, List.splitOn_append_cons_self, commandsOfPieces_append]

/-! ### Lines put in -/

theorem trim_prefix_dropWhile (text : List Char) : trim text <+: text.dropWhile isBlank := by
  have hsuffix := List.dropWhile_suffix (l := (text.dropWhile isBlank).reverse) isBlank
  rw [← List.reverse_prefix, List.reverse_reverse] at hsuffix
  exact hsuffix

/-- U+FEFF is no white space, so a line that opens with it says something. -/
theorem not_prefix_of_isSilent {line : Bytes} (h : IsSilent line) : ¬ byteOrderMark <+: line := by
  rintro ⟨rest, rfl⟩
  have hdecode : (Utf8.decode (byteOrderMark ++ rest)).toList =
      '\uFEFF' :: (Utf8.decode rest).toList := by
    rw [Utf8.decode, String.toList_ofList, byteOrderMark_eq, Utf8.decodeFrom_utf8EncodeChar,
      Utf8.decode, String.toList_ofList]
  rw [IsSilent, hdecode] at h
  rcases h with hblank | hdashes
  · exact absurd (hblank _ List.mem_cons_self) (by decide)
  · have hfirst := hdashes.trans (trim_prefix_dropWhile _)
    rw [List.dropWhile_cons_of_neg (by decide)] at hfirst
    obtain ⟨others, hothers⟩ := hfirst
    cases hothers

/-- The script with lines put in that say nothing, one after the other, each with an LF behind it
and where a line begins. -/
inductive Pads (script : Bytes) : Bytes → Prop
  | refl : Pads script script
  | insert {before after line : Bytes} (padded : Pads script (before ++ after))
      (begins : before = [] ∨ ∃ front, before = front ++ [lineFeed])
      (no_ending : carriageReturn ∉ line ∧ lineFeed ∉ line) (silent : IsSilent line) :
      Pads script (before ++ (line ++ lineFeed :: after))

theorem not_mem_of_insert {before after line : Bytes} (hcr : carriageReturn ∉ before ++ after)
    (hline : carriageReturn ∉ line) :
    carriageReturn ∉ before ++ (line ++ lineFeed :: after) := by
  have hne : carriageReturn ≠ lineFeed := by decide
  simp only [List.mem_append, List.mem_cons, not_or] at hcr ⊢
  exact ⟨hcr.1, hline, hne, hcr.2⟩

theorem not_prefix_of_insert {before after line : Bytes}
    (hmark : ¬ byteOrderMark <+: before ++ after)
    (hbegins : before = [] ∨ ∃ front, before = front ++ [lineFeed]) (hsilent : IsSilent line) :
    ¬ byteOrderMark <+: before ++ (line ++ lineFeed :: after) := by
  rintro hprefix
  rcases hbegins with rfl | ⟨front, rfl⟩
  · exact not_prefix_of_isSilent hsilent
      (byteOrderMark_prefix_of_append_cons lineFeed_not_mem_byteOrderMark hprefix)
  · rw [List.append_assoc] at hmark hprefix
    have hfront := byteOrderMark_prefix_of_append_cons lineFeed_not_mem_byteOrderMark hprefix
    exact hmark (hfront.trans (List.prefix_append _ _))

theorem parse_insert {before after line : Bytes} (hcr : carriageReturn ∉ before ++ after)
    (hmark : ¬ byteOrderMark <+: before ++ after)
    (hbegins : before = [] ∨ ∃ front, before = front ++ [lineFeed])
    (hline : carriageReturn ∉ line ∧ lineFeed ∉ line) (hsilent : IsSilent line) :
    parse policy (before ++ (line ++ lineFeed :: after)) = parse policy (before ++ after) := by
  have hsplit : (line ++ lineFeed :: after).splitOn lineFeed =
      line :: after.splitOn lineFeed := by
    rw [List.splitOn_append_cons_self, List.splitOn_eq_singleton hline.2, List.singleton_append]
  rw [parse_eq_of_not_mem (not_mem_of_insert hcr hline.1), parse_eq_of_not_mem hcr,
    skipByteOrderMark_of_unmarked (not_prefix_of_insert hmark hbegins hsilent),
    skipByteOrderMark_of_unmarked hmark]
  rcases hbegins with rfl | ⟨front, rfl⟩
  · rw [List.nil_append, List.nil_append, hsplit, commandsOfPieces_cons_of_isSilent hsilent]
  · rw [List.append_assoc, List.append_assoc, List.singleton_append, List.singleton_append,
      List.splitOn_append_cons_self front (line ++ lineFeed :: after), hsplit,
      List.splitOn_append_cons_self front after,
      commandsOfPieces_append_cons_of_isSilent hsilent]

theorem Pads.parse_eq {script padded : Bytes} (h : Pads script padded)
    (hcr : carriageReturn ∉ script) (hmark : ¬ byteOrderMark <+: script) :
    carriageReturn ∉ padded ∧ ¬ byteOrderMark <+: padded ∧
      parse policy padded = parse policy script := by
  induction h with
  | refl => exact ⟨hcr, hmark, rfl⟩
  | insert hpadded hbegins hline hsilent ih =>
    obtain ⟨hstillcr, hstillmark, hparse⟩ := ih
    refine ⟨not_mem_of_insert hstillcr hline.1, not_prefix_of_insert hstillmark hbegins hsilent, ?_⟩
    rw [parse_insert hstillcr hstillmark hbegins hline hsilent, hparse]

end Script

open LineStream

/-- Content without CR is read line by line: a line by itself gives what its text gives, two
contents with an LF between are read one after the other, and the first failure is the failure of
the whole. A line of white space only, or with two dashes in front, gives no command and no failure
whatever else is on it, so that putting such lines in anywhere in front of lines changes nothing. -/
theorem parseAs_append_and_pads (policy : NamePolicy) (source : String) :
    (∀ line : Bytes, carriageReturn ∉ line → lineFeed ∉ line →
      Script.parseAs policy source line =
        (Option.toList <$> Script.commandOfLine policy
          (Utf8.decode (skipByteOrderMark line))).mapError (Failure.badLine source)) ∧
      (∀ first later : Bytes, carriageReturn ∉ first → carriageReturn ∉ later →
        ¬ byteOrderMark <+: later →
          Script.parseAs policy source (first ++ lineFeed :: later) = do
            let commands ← Script.parseAs policy source first
            let others ← Script.parseAs policy source later
            return commands ++ others) ∧
      (∀ line : Bytes, carriageReturn ∉ line → lineFeed ∉ line → Script.IsSilent line →
        Script.commandOfLine policy (Utf8.decode line) = .ok none) ∧
      ∀ script padded : Bytes, carriageReturn ∉ script → ¬ byteOrderMark <+: script →
        Script.Pads script padded →
          Script.parseAs policy source padded = Script.parseAs policy source script := by
  refine ⟨fun line hcr hlf ↦ ?_, fun first later hfirst hlater hmark ↦ ?_,
    fun line _ _ hsilent ↦ Script.commandOfLine_of_isSilent hsilent,
    fun script padded hcr hmark hpads ↦ ?_⟩
  · rw [Script.parseAs, Script.parse_line hcr hlf]
  · rw [Script.parseAs, Script.parse_append_cons hfirst hlater hmark, Script.parseAs,
      Script.parseAs]
    cases Script.parse policy first with
    | error issue => rfl
    | ok commands => cases Script.parse policy later <;> rfl
  · rw [Script.parseAs, Script.parseAs, (hpads.parse_eq hcr hmark).2.2]

/-- A quote and a character that the LF cuts off stay on their line, and dashes hide a quote. -/
theorem parseAs_append_and_pads_open_ends :
    Script.parseAs .strict "s" (Utf8.encode "go \"a" ++ lineFeed :: Utf8.encode "1st") =
        .error (.badLine "s" (.unterminated .quote)) ∧
      Script.parseAs .strict "s"
          ((Utf8.encode "go " ++ [0xE2, 0x82]) ++ lineFeed :: Utf8.encode "run") =
        .ok [{ name := "go", args := ["\uFFFD"] }, { name := "run", args := [] }] ∧
      Script.commandOfLine .strict (Utf8.decode (Utf8.encode " -- \"b")) = .ok none ∧
      Script.parseAs .strict "s" (Utf8.encode " -- \"b\ngo a\n\t\nrun") =
        .ok [{ name := "go", args := ["a"] }, { name := "run", args := [] }] := by
  obtain ⟨hline, happend, hsilent, hpads⟩ := parseAs_append_and_pads .strict "s"
  have hdashes : Script.IsSilent (Utf8.encode " -- \"b") := Or.inr (by decide)
  have hblank : Script.IsSilent (Utf8.encode "\t") := by
    rw [Script.IsSilent, Utf8.decode_encode]
    exact Or.inl (List.forall_mem_singleton.mpr (by decide))
  have hpadded : Script.Pads (Utf8.encode "go a\nrun") (Utf8.encode " -- \"b\ngo a\n\t\nrun") :=
    @Script.Pads.insert _ [] (Utf8.encode "go a\n\t\nrun") (Utf8.encode " -- \"b")
      (@Script.Pads.insert _ (Utf8.encode "go a\n") (Utf8.encode "run") (Utf8.encode "\t") .refl
        (Or.inr ⟨Utf8.encode "go a", by decide⟩) (by decide) hblank)
      (Or.inl rfl) (by decide) hdashes
  refine ⟨?_, ?_, hsilent _ (by decide) (by decide) hdashes, ?_⟩
  · rw [happend _ _ (by decide) (by decide) (by decide), hline _ (by decide) (by decide)]
    decide
  · rw [happend _ _ (by decide) (by decide) (by decide), hline _ (by decide) (by decide),
      hline _ (by decide) (by decide)]
    decide
  · rw [hpads _ _ (by decide) (by decide) hpadded, Script.parseAs,
      Script.parse_eq_of_not_mem (by decide)]
    decide

end CommandScript
