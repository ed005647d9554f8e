import CommandScript.Proofs.LineReading
import CommandScript.Proofs.Names
import CommandScript.Proofs.QuotedTokens
import CommandScript.Proofs.Utf8RoundTrip
import CommandScript.Script.Library
/-!
# Scripts written line by line

A text of lines that hold no CR and no LF, with an LF behind each, is read back as these lines
(`lines_encode_unlines`). A line that holds a command name and quoted texts, a blank in front of
each, gives that command without the texts that are empty. So a script of such lines is always read,
and its commands are known (`parse_commandText`), whatever way of quoting the texts is used.
-/

set_option autoImplicit false
set_option relaxedAutoImplicit false

namespace CommandScript

/-! ### Lines with an LF behind each -/

/-- A byte that is neither CR nor LF ends no line. -/
theorem LineEnding.breakAt?_of_ne {b : UInt8} (hcr : b ≠ carriageReturn) (hlf : b ≠ lineFeed)
    (ending : LineEnding) (rest : Bytes) : ending.breakAt? b rest = none := by
  cases ending <;> cases rest <;> simp [breakAt?, hcr, hlf]

theorem LineEnding.unbroken_of_not_mem {line : Bytes} (hcr : carriageReturn ∉ line)
    (hlf : lineFeed ∉ line) (ending : LineEnding) (rest : Bytes) : ending.Unbroken line rest := by
  rintro before b after rfl
  refine breakAt?_of_ne ?_ ?_ ending _
  · rintro rfl
    simp at hcr
  · rintro rfl
    simp at hlf

/-- Pieces without CR and LF, with an LF behind each, are the lines of their stream. -/
theorem LineStream.lines_lf {ending : LineEnding} (hending : ending = .unset ∨ ending = .lf)
    {pieces : List Bytes} (h : ∀ piece ∈ pieces, carriageReturn ∉ piece ∧ lineFeed ∉ piece) :
    LineStream.lines { ending, rest := pieces.flatMap (· ++ [lineFeed]) } =
      pieces.map (·, .lf) := by
  induction pieces generalizing ending with
  | nil => exact lines_nil ending
  | cons piece pieces ih =>
    obtain ⟨hcr, hlf⟩ := h piece List.mem_cons_self
    have hbreak : ending.breakAt? lineFeed (pieces.flatMap (· ++ [lineFeed])) =
        some (.lf, pieces.flatMap (· ++ [lineFeed])) := by
      rcases hending with rfl | rfl <;> rfl
    have hnext := next?_of_breakAt? (LineEnding.unbroken_of_not_mem hcr hlf ending _) hbreak
    rw [List.flatMap_cons, List.append_assoc, List.singleton_append, lines_of_next?_eq_some hnext,
      ih (Or.inr rfl) fun other hother ↦ h other (List.mem_cons_of_mem _ hother)]
    rfl

/-! ### The bytes of lines -/

/-- Bytes of a text start with the byte-order mark only if the text starts with U+FEFF. -/
theorem LineStream.skipByteOrderMark_encode {chars : List Char} (h : chars.head? ≠ some '\uFEFF') :
    skipByteOrderMark (Utf8.encode (String.ofList chars)) = Utf8.encode (String.ofList chars) := by
  rw [skipByteOrderMark, if_neg]
  rw [List.isPrefixOf_iff_prefix, Utf8.encode_ofList]
  rintro ⟨rest, hrest⟩
  have hmark : byteOrderMark = String.utf8EncodeChar '\uFEFF' := by decide
  have hchars := Utf8.decodeFrom_flatMap chars []
  rw [List.append_nil, ← hrest, hmark, Utf8.decodeFrom_utf8EncodeChar, Utf8.decodeFrom,
    List.append_nil] at hchars
  rw [← hchars] at h
  exact h rfl

/-- A character below U+0080 is in a text if its byte is. -/
theorem Utf8.mem_of_toUInt8_mem {chars : List Char} {c : Char} (hc : c.toNat < 0x80)
    (h : UInt8.ofNat c.toNat ∈ chars.flatMap String.utf8EncodeChar) : c ∈ chars := by
  have hvalue : (UInt8.ofNat c.toNat).toNat = c.toNat := toNat_ofNat (by omega)
  obtain ⟨d, hd, hbyte⟩ := List.mem_flatMap.mp h
  have heq := toNat_of_mem_utf8EncodeChar hbyte (by omega)
  rwa [← Char.toNat_inj.mp (heq.trans hvalue)]

/-- Lines with an LF behind each, as one text. -/
def unlines (lines : List (List Char)) : String := String.ofList (lines.flatMap (· ++ ['\n']))

theorem encode_unlines (lines : List (List Char)) :
    Utf8.encode (unlines lines) =
      (lines.map (·.flatMap String.utf8EncodeChar)).flatMap (· ++ [lineFeed]) := by
  rw [unlines, Utf8.encode_ofList, List.flatMap_assoc, List.flatMap_map]
  refine congrArg (lines.flatMap ·) (funext fun line ↦ ?_)
  rw [List.flatMap_append]
  rfl

/-- Lines without CR and LF are read back from their text, unless a byte-order mark opens it. -/
theorem lines_encode_unlines {lines : List (List Char)}
    (h : ∀ line ∈ lines, '\r' ∉ line ∧ '\n' ∉ line)
    (hmark : (lines.flatMap (· ++ ['\n'])).head? ≠ some '\uFEFF') :
    Script.lines (Utf8.encode (unlines lines)) = lines.map String.ofList := by
  have hpieces : ∀ piece ∈ lines.map (·.flatMap String.utf8EncodeChar),
      carriageReturn ∉ piece ∧ lineFeed ∉ piece := by
    intro piece hpiece
    obtain ⟨line, hline, rfl⟩ := List.mem_map.mp hpiece
    obtain ⟨hcr, hlf⟩ := h line hline
    exact ⟨fun hmem ↦ hcr (Utf8.mem_of_toUInt8_mem (c := '\r') (by decide) hmem),
      fun hmem ↦ hlf (Utf8.mem_of_toUInt8_mem (c := '\n') (by decide) hmem)⟩
  have hdecode : ∀ line : List Char,
      Utf8.decode (line.flatMap String.utf8EncodeChar) = String.ofList line := by
    intro line
    rw [← Utf8.encode_ofList, Utf8.decode_encode]
  rw [Script.lines, LineStream.ofBytes, unlines, LineStream.skipByteOrderMark_encode hmark,
    ← unlines, encode_unlines, LineStream.lines_lf (Or.inl rfl) hpieces, List.map_map, List.map_map]
  exact List.map_congr_left fun line _ ↦ hdecode line

/-! ### White space at the ends of a line -/

theorem dropWhile_isBlank_eq_self {text : List Char} (h : ∀ c ∈ text.head?, isBlank c = false) :
    text.dropWhile isBlank = text := by
  cases text with
  | nil => rfl
  | cons c rest => exact List.dropWhile_cons_of_neg (by simp [h c rfl])

theorem trim_eq_self {text : List Char} (hfirst : ∀ c ∈ text.head?, isBlank c = false)
    (hlast : ∀ c ∈ text.getLast?, isBlank c = false) : trim text = text := by
  rw [← List.head?_reverse] at hlast
  rw [trim, dropWhile_isBlank_eq_self hfirst, dropWhile_isBlank_eq_self hlast, List.reverse_reverse]

/-! ### Commands on lines -/

theorem Tokens.isPlain_of_isNameChar {c : Char} (hc : isNameChar c = true) : IsPlain c := by
  refine ⟨?_, ?_, ?_, ?_⟩
  all_goals
    rintro rfl
    exact absurd hc (by decide)

section Commands

variable {policy : NamePolicy} {spelling content : String → List Char}

/-- A command on a line of its own, its arguments quoted in some way. -/
def commandText (spelling : String → List Char) (command : Command) : List Char :=
  command.name.toList ++ command.args.flatMap fun arg ↦ ' ' :: '"' :: (spelling arg ++ ['"'])

/-- The command that such a line gives: its name in lower case, and what the spellings read as,
unless that is empty. -/
def commandRead (content : String → List Char) (command : Command) : Command where
  name := canonicalName command.name
  args := ((command.args.map content).filter fun text ↦ !text.isEmpty).map String.ofList

theorem trim_commandText {command : Command} (hname : policy.accepts command.name = true) :
    trim (commandText spelling command) = commandText spelling command := by
  have hchars := NamePolicy.isNameChar_of_accepts hname
  refine trim_eq_self (fun c hc ↦ ?_) fun c hc ↦ ?_
  · obtain ⟨first, rest, hcons, hstart, -⟩ := NamePolicy.toList_of_accepts hname
    rw [commandText, hcons, List.cons_append, List.head?_cons, Option.mem_some_iff] at hc
    exact hc ▸ isBlank_of_isNameChar (isNameChar_of_isNameStart hstart)
  · rw [commandText, List.getLast?_append, Option.mem_def, Option.or_eq_some_iff] at hc
    rcases hc with hquote | ⟨-, hlast⟩
    · rw [List.getLast?_flatMap] at hquote
      obtain ⟨arg, -, harg⟩ := List.exists_of_findSome?_eq_some hquote
      rw [← List.cons_append, ← List.cons_append, List.getLast?_concat, Option.some_inj] at harg
      exact harg ▸ rfl
    · exact isBlank_of_isNameChar (hchars c (List.mem_of_mem_getLast? hlast))

theorem not_mem_commandText {command : Command} (hname : policy.accepts command.name = true)
    {c : Char} (hnameChar : isNameChar c = false) (hspace : c ≠ ' ') (hquote : c ≠ '"')
    (h : ∀ arg ∈ command.args, c ∉ spelling arg) : c ∉ commandText spelling command := by
  rw [commandText, List.mem_append, List.mem_flatMap]
  rintro (hmem | ⟨arg, harg, hmem⟩)
  · rw [NamePolicy.isNameChar_of_accepts hname c hmem] at hnameChar
    cases hnameChar
  · simp only [List.mem_cons, List.mem_append, List.not_mem_nil, or_false] at hmem
    rcases hmem with hmem | hmem | hmem | hmem
    · exact hspace hmem
    · exact hquote hmem
    · exact h arg harg hmem
    · exact hquote hmem

theorem commandOfLine_commandText {command : Command} (hname : policy.accepts command.name = true)
    (h : ∀ arg ∈ command.args, Tokens.Spells (spelling arg) (content arg)) :
    Script.commandOfLine policy (String.ofList (commandText spelling command)) =
      .ok (some (commandRead content command)) := by
  have hplain : ∀ c ∈ command.name.toList, Tokens.IsPlain c := fun c hc ↦
    Tokens.isPlain_of_isNameChar (NamePolicy.isNameChar_of_accepts hname c hc)
  have htokens := Tokens.tokenize_quoted hplain (NamePolicy.toList_ne_nil_of_accepts hname) h
  rw [Script.commandOfLine, String.toList_ofList, trim_commandText hname, commandText, htokens]
  simp only [List.map_cons, String.ofList_toList, Script.commandOfTokens, hname, ↓reduceIte]
  rfl

theorem commandsOfLines_of_forall {α : Type} {line : α → String} {command : α → Command}
    {items : List α}
    (h : ∀ item ∈ items, Script.commandOfLine policy (line item) = .ok (some (command item))) :
    Script.commandsOfLines policy (items.map line) = .ok (items.map command) := by
  induction items with
  | nil => rfl
  | cons item items ih =>
    rw [List.map_cons, Script.commandsOfLines, h item List.mem_cons_self,
      ih fun other hother ↦ h other (List.mem_cons_of_mem _ hother)]
    rfl

theorem Script.parseAs_eq_ok_iff {source : String} {content : Bytes} {commands : List Command} :
    Script.parseAs policy source content = .ok commands ↔
      Script.parse policy content = .ok commands := by
  rw [Script.parseAs]
  cases Script.parse policy content <;> simp [Except.mapError]

/-- A script of such lines is read, whatever its spellings are, as long as none holds a CR or an
LF. -/
theorem parse_commandText {commands : List Command}
    (hnames : ∀ command ∈ commands, policy.accepts command.name = true)
    (hspells : ∀ command ∈ commands, ∀ arg ∈ command.args,
      Tokens.Spells (spelling arg) (content arg))
    (hlines : ∀ command ∈ commands, ∀ arg ∈ command.args,
      '\r' ∉ spelling arg ∧ '\n' ∉ spelling arg) :
    Script.parse policy (Utf8.encode (unlines (commands.map (commandText spelling)))) =
      .ok (commands.map (commandRead content)) := by
  have hends : ∀ line ∈ commands.map (commandText spelling), '\r' ∉ line ∧ '\n' ∉ line := by
    intro line hline
    obtain ⟨command, hcommand, rfl⟩ := List.mem_map.mp hline
    have hargs := hlines command hcommand
    exact ⟨not_mem_commandText (hnames command hcommand) (by decide) (by decide) (by decide)
        fun arg harg ↦ (hargs arg harg).1,
      not_mem_commandText (hnames command hcommand) (by decide) (by decide) (by decide)
        fun arg harg ↦ (hargs arg harg).2⟩
  have hmark : ((commands.map (commandText spelling)).flatMap (· ++ ['\n'])).head? ≠
      some '\uFEFF' := by
    cases commands with
    | nil => simp
    | cons command commands =>
      obtain ⟨first, rest, hcons, hstart, -⟩ :=
        NamePolicy.toList_of_accepts (hnames command List.mem_cons_self)
      rw [List.map_cons, List.flatMap_cons, commandText, hcons, List.cons_append, List.cons_append,
        List.cons_append, List.head?_cons, ne_eq, Option.some_inj]
      rintro rfl
      exact absurd hstart (by decide)
  rw [Script.parse, lines_encode_unlines hends hmark, List.map_map]
  exact commandsOfLines_of_forall fun command hcommand ↦
    commandOfLine_commandText (hnames command hcommand) (hspells command hcommand)

end Commands

end CommandScript
