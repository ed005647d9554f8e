import CommandScript.Proofs.JsonGrammar
/-!
# Printed streams read back

Neither printed form of a stream loses anything. The text can be cut only where it was put together
(`render_text_unambiguous`): no line's end stands within a line, no space within a name, no quote
mark within an argument that is not escaped, and no command is printed as the dash of the last line.
The JSON form denotes the stream's own parts, in order, and nothing else (`render_json_lossless`).
-/

set_option autoImplicit false
set_option relaxedAutoImplicit false

namespace CommandScript

/-! ### Lines -/

theorem eq_of_map_eq {α β : Type} {f : α → β} {items others : List α}
    (hinj : ∀ item ∈ items, ∀ other ∈ others, f item = f other → item = other)
    (h : items.map f = others.map f) : items = others := by
  induction items generalizing others with
  | nil => exact (List.map_eq_nil_iff.mp h.symm).symm
  | cons item items ih =>
    cases others with
    | nil => cases h
    | cons other others =>
      have hfirst := hinj item List.mem_cons_self other List.mem_cons_self (List.cons.inj h).1
      have hrest := ih (fun item hitem other hother ↦ hinj item (List.mem_cons_of_mem _ hitem) other
        (List.mem_cons_of_mem _ hother)) (List.cons.inj h).2
      rw [hfirst, hrest]

section Lines

variable {lines others : List (List Char)}

/-- Lines are read off their text at the line feeds. -/
theorem unlines_inj (hlines : ∀ line ∈ lines, '\n' ∉ line) (hothers : ∀ line ∈ others, '\n' ∉ line)
    (h : unlines lines = unlines others) : lines = others := by
  replace h := String.ofList_injective h
  induction lines generalizing others with
  | nil =>
    cases others with
    | nil => rfl
    | cons line others => simp at h
  | cons line lines ih =>
    cases others with
    | nil => simp at h
    | cons other others =>
      obtain ⟨hline, hlines⟩ := List.forall_mem_cons.mp hlines
      obtain ⟨hother, hothers⟩ := List.forall_mem_cons.mp hothers
      have hwithin : ∀ {line : List Char}, '\n' ∉ line → ∀ c ∈ line, (c != '\n') = true :=
        fun hline c hc ↦ bne_iff_ne.mpr (ne_of_mem_of_not_mem hc hline)
      have hend : ∀ (rest : List Char), ∀ c ∈ ('\n' :: rest).head?, (c != '\n') = false := by
        intro rest c hc
        obtain rfl := Option.some.inj hc
        rfl
      rw [List.flatMap_cons, List.flatMap_cons, List.append_assoc, List.append_assoc] at h
      obtain ⟨hfirst, hrest⟩ :=
        append_inj_of_all (hwithin hline) (hwithin hother) (hend _) (hend _) h
      rw [hfirst, ih hlines hothers (List.cons.inj hrest).2]

theorem count_unlines (hlines : ∀ line ∈ lines, '\n' ∉ line) :
    (unlines lines).toList.count '\n' = lines.length := by
  rw [unlines, String.toList_ofList]
  induction lines with
  | nil => rfl
  | cons line lines ih =>
    obtain ⟨hline, hlines⟩ := List.forall_mem_cons.mp hlines
    rw [List.flatMap_cons, List.count_append, List.count_append, ih hlines,
      List.count_eq_zero_of_not_mem hline, List.length_cons, Nat.zero_add, Nat.add_comm]
    rfl

theorem getLast?_unlines (h : unlines lines ≠ "") :
    (unlines lines).toList.getLast? = some '\n' := by
  rcases List.eq_nil_or_concat lines with rfl | ⟨before, line, rfl⟩
  · exact absurd rfl h
  · simp [unlines]

theorem eq_of_mem_unlines (hlines : ∀ line ∈ lines, ∀ c ∈ line, 0x20 ≤ c.toNat) {c : Char}
    (hc : c ∈ (unlines lines).toList) (hlow : c.toNat < 0x20) : c = '\n' := by
  rw [unlines, String.toList_ofList] at hc
  obtain ⟨line, hline, hc⟩ := List.mem_flatMap.mp hc
  rcases List.mem_append.mp hc with hc | hc
  · exact absurd (hlines line hline c hc) (Nat.not_le.mpr hlow)
  · exact List.mem_singleton.mp hc

end Lines

/-! ### Commands on lines -/

namespace Command

/-- A name that can be told from what stands around it on a line. -/
structure IsTag (name : String) : Prop where
  ne_nil : name.toList ≠ []
  ne_space : ∀ c ∈ name.toList, c ≠ ' '
  ne_dash : ∀ c ∈ name.toList, c ≠ '-'
  le_toNat : ∀ c ∈ name.toList, 0x20 ≤ c.toNat

theorem isTag_of_name {name : String}
    (h : name = markerName ∨ NamePolicy.relaxed.accepts name = true) : IsTag name := by
  rcases h with rfl | h
  · have hchars : markerName.toList = ['<', 'f', 'i', 'l', 'e', '>'] := rfl
    refine ⟨?_, ?_, ?_, ?_⟩ <;> simp [hchars]
  · have hchars := NamePolicy.isNameChar_of_accepts h
    refine ⟨NamePolicy.toList_ne_nil_of_accepts h, ?_, ?_, ?_⟩
    · rintro c hc rfl
      exact absurd (hchars ' ' hc) (by decide)
    · rintro c hc rfl
      exact absurd (hchars '-' hc) (by decide)
    · intro c hc
      have := (toNat_of_isNameChar (hchars c hc)).1
      omega

/-- Quoted arguments, a space in front of each. -/
def argChars (args : List String) : List Char := args.flatMap fun arg ↦ ' ' :: Json.quote arg

theorem argChars_injective {args others : List String} (h : argChars args = argChars others) :
    args = others := by
  induction args generalizing others with
  | nil =>
    cases others with
    | nil => rfl
    | cons other others => cases h
  | cons arg args ih =>
    cases others with
    | nil => cases h
    | cons other others =>
      rw [argChars, argChars, List.flatMap_cons, List.flatMap_cons, List.cons_append,
        List.cons_append, ← argChars, ← argChars, Json.quote.eq_1 other, List.cons_append,
        List.append_assoc] at h
      obtain ⟨hother, hrest⟩ :=
        Json.eq_of_quote (Json.spellsString_escape other) (List.cons.inj h).2
      rw [hother, ih hrest]

variable {command other : Command}

theorem lineChars_inj (hcommand : IsTag command.name) (hother : IsTag other.name)
    (h : command.lineChars = other.lineChars) : command = other := by
  have hspace : ∀ args, ∀ c ∈ (argChars args).head?, (c != ' ') = false := by
    intro args c hc
    cases args with
    | nil => cases hc
    | cons arg args =>
      obtain rfl := Option.some.inj hc
      rfl
  obtain ⟨hname, hargs⟩ := append_inj_of_all
    (fun c hc ↦ bne_iff_ne.mpr (hcommand.ne_space c hc))
    (fun c hc ↦ bne_iff_ne.mpr (hother.ne_space c hc)) (hspace _) (hspace _) h
  obtain ⟨name, args⟩ := command
  obtain ⟨otherName, otherArgs⟩ := other
  exact congrArg₂ Command.mk (String.toList_inj.mp hname) (argChars_injective hargs)

theorem lineChars_ne_dash (hcommand : IsTag command.name) : command.lineChars ≠ ['-'] := by
  intro h
  obtain ⟨c, chars, hname⟩ := List.exists_cons_of_ne_nil hcommand.ne_nil
  rw [lineChars, hname] at h
  refine hcommand.ne_dash c ?_ (List.cons.inj h).1
  rw [hname]
  exact List.mem_cons_self

theorem le_toNat_of_mem_lineChars (hcommand : IsTag command.name) {c : Char}
    (hc : c ∈ command.lineChars) : 0x20 ≤ c.toNat := by
  rcases List.mem_append.mp hc with hc | hc
  · exact hcommand.le_toNat c hc
  · obtain ⟨arg, -, hc⟩ := List.mem_flatMap.mp hc
    rcases List.mem_cons.mp hc with rfl | hc
    · decide
    · exact Json.le_toNat_of_mem_quote hc

theorem toJson_injective : Function.Injective toJson := by
  intro command other h
  have hstring : Function.Injective Json.string := fun _ _ h ↦ Json.string.inj h
  simp only [toJson, Json.object.injEq, List.cons.injEq, Prod.mk.injEq, true_and,
    Json.string.injEq, Json.array.injEq, and_true] at h
  obtain ⟨name, args⟩ := command
  obtain ⟨otherName, otherArgs⟩ := other
  exact congrArg₂ Command.mk h.1 (hstring.list_map h.2)

end Command

namespace CommandStream

variable {stream other : CommandStream}

/-! ### The text of a stream -/

/-- The lines of the text: one for each command, and a dash if more is to come. -/
def textLines (stream : CommandStream) : List (List Char) :=
  stream.commands.map Command.lineChars ++ if stream.fromStdin then [['-']] else []

theorem render_text (stream : CommandStream) : stream.render .text = unlines stream.textLines := by
  rw [render, textChars, unlines, textLines, List.flatMap_append, List.flatMap_map]
  cases stream.fromStdin <;> rfl

theorem le_toNat_of_mem_textLines (hnames : ∀ command ∈ stream.commands, Command.IsTag command.name)
    {line : List Char} (hline : line ∈ stream.textLines) : ∀ c ∈ line, 0x20 ≤ c.toNat := by
  intro c hc
  rcases List.mem_append.mp hline with hline | hline
  · obtain ⟨command, hcommand, rfl⟩ := List.mem_map.mp hline
    exact Command.le_toNat_of_mem_lineChars (hnames command hcommand) hc
  · have hdash : line = ['-'] := by
      cases hstdin : stream.fromStdin <;> simp_all
    rw [hdash, List.mem_singleton] at hc
    subst hc
    decide

theorem newline_notMem_textLines
    (hnames : ∀ command ∈ stream.commands, Command.IsTag command.name) :
    ∀ line ∈ stream.textLines, '\n' ∉ line := by
  intro line hline hc
  exact absurd (le_toNat_of_mem_textLines hnames hline '\n' hc) (by decide)

/-- The dash is told from the commands, since none is printed as one. -/
theorem textLines_inj (hnames : ∀ command ∈ stream.commands, Command.IsTag command.name)
    (hothers : ∀ command ∈ other.commands, Command.IsTag command.name)
    (h : stream.textLines = other.textLines) : stream = other := by
  have hcommand : ∀ {commands : List Command}, (∀ command ∈ commands, Command.IsTag command.name) →
      ∀ line ∈ commands.map Command.lineChars, (line != ['-']) = true := by
    intro commands hnames line hline
    obtain ⟨command, hcommand, rfl⟩ := List.mem_map.mp hline
    exact bne_iff_ne.mpr (Command.lineChars_ne_dash (hnames command hcommand))
  have hdash : ∀ fromStdin : Bool,
      ∀ line ∈ (if fromStdin then [['-']] else []).head?, (line != ['-']) = false := by
    decide
  obtain ⟨hlines, hstdin⟩ :=
    append_inj_of_all (hcommand hnames) (hcommand hothers) (hdash _) (hdash _) h
  have hcommands : stream.commands = other.commands :=
    eq_of_map_eq (fun command hcommand other hother ↦
      Command.lineChars_inj (hnames command hcommand) (hothers other hother)) hlines
  obtain ⟨commands, fromStdin⟩ := stream
  obtain ⟨otherCommands, otherFromStdin⟩ := other
  refine congrArg₂ CommandStream.mk hcommands ?_
  cases fromStdin <;> cases otherFromStdin <;> simp_all

/-- Two streams of commands and markers with one text are the same stream, whatever the arguments
are. The text has as many line feeds as there are commands, and one more if more is to come; it ends
with one, and no other character of it lies below U+0020. -/
theorem render_text_unambiguous
    (hnames : ∀ command ∈ stream.commands, command.name = Command.markerName ∨
      NamePolicy.relaxed.accepts command.name = true)
    (hothers : ∀ command ∈ other.commands, command.name = Command.markerName ∨
      NamePolicy.relaxed.accepts command.name = true) :
    (stream.render .text = other.render .text → stream = other) ∧
      (stream.render .text).toList.count '\n' =
        stream.commands.length + (if stream.fromStdin then 1 else 0) ∧
      (stream.render .text ≠ "" → (stream.render .text).toList.getLast? = some '\n') ∧
      ∀ c ∈ (stream.render .text).toList, c.toNat < 0x20 → c = '\n' := by
  replace hnames := fun command hcommand ↦ Command.isTag_of_name (hnames command hcommand)
  replace hothers := fun command hcommand ↦ Command.isTag_of_name (hothers command hcommand)
  rw [render_text, render_text]
  refine ⟨fun h ↦ ?_, ?_, getLast?_unlines, fun c hc hlow ↦ ?_⟩
  · exact textLines_inj hnames hothers
      (unlines_inj (newline_notMem_textLines hnames) (newline_notMem_textLines hothers) h)
  · rw [count_unlines (newline_notMem_textLines hnames), textLines, List.length_append,
      List.length_map]
    cases stream.fromStdin <;> rfl
  · exact eq_of_mem_unlines (fun line hline ↦ le_toNat_of_mem_textLines hnames hline) hc hlow

/-- An argument that holds a line's end and a dash is not taken for the last line, and ends none. -/
theorem render_text_unambiguous_say :
    CommandStream.render { commands := [{ name := "say", args := ["a\n-\n", ""] }] } .text ≠
        CommandStream.render { commands := [{ name := "say", args := ["a"] }], fromStdin := true }
          .text ∧
      (CommandStream.render { commands := [{ name := "say", args := ["a\n-\n", ""] }] }
        .text).toList.count '\n' = 1 := by
  have h := @render_text_unambiguous { commands := [{ name := "say", args := ["a\n-\n", ""] }] }
    { commands := [{ name := "say", args := ["a"] }], fromStdin := true } (by decide) (by decide)
  exact ⟨fun heq ↦ absurd (h.1 heq) (by decide), h.2.1⟩

/-! ### The JSON form of a stream -/

theorem toJson_injective : Function.Injective toJson := by
  intro stream other h
  simp only [toJson, Json.object.injEq, List.cons.injEq, Prod.mk.injEq, true_and,
    Json.array.injEq, Json.boolean.injEq, and_true] at h
  obtain ⟨commands, fromStdin⟩ := stream
  obtain ⟨otherCommands, otherFromStdin⟩ := other
  exact congrArg₂ CommandStream.mk (Command.toJson_injective.list_map h.1) h.2

/-- The datum of a stream: its commands in order, each with its name and its arguments, and whether
more is to come. -/
theorem datum_toJson (stream : CommandStream) :
    stream.toJson.datum =
      .object [("commands", .array (stream.commands.map fun command ↦
        .object [("name", .string command.name), ("args", .array (command.args.map .string))])),
        ("from_stdin", .boolean stream.fromStdin)] := by
  simp [toJson, Command.toJson, Json.datum, Json.memberData, Json.itemData_eq_map]

/-- The JSON form is a single line and a JSON text. What it denotes is an object of the stream's
parts, so that different streams have different texts. -/
theorem render_json_lossless (stream : CommandStream) :
    (∀ c ∈ (stream.render .json).toList, 0x20 ≤ c.toNat) ∧
      (∀ found, Json.IsText (stream.render .json).toList found ↔
        found = .object [("commands", .array (stream.commands.map fun command ↦
          .object [("name", .string command.name), ("args", .array (command.args.map .string))])),
          ("from_stdin", .boolean stream.fromStdin)]) ∧
      ∀ other : CommandStream, other.render .json = stream.render .json ↔ other = stream := by
  refine ⟨fun c hc ↦ ?_, fun found ↦ ?_, fun other ↦ ⟨fun h ↦ ?_, fun h ↦ h ▸ rfl⟩⟩
  · rw [render, Json.render, String.toList_ofList] at hc
    exact Json.le_toNat_of_mem_renderChars hc
  · rw [render, Json.isText_render_iff, datum_toJson]
  · have hread := Json.decode?_render other.toJson
    rw [render, render] at h
    rw [h, Json.decode?_render] at hread
    exact toJson_injective (Option.some.inj hread).symm

end CommandStream

end CommandScript
