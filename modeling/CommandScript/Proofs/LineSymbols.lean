import CommandScript.Script.Tokens
import Mathlib.Data.List.Infix
import Mathlib.Tactic.SplitIfs
/-!
# Tokens by way of symbols

A reading of a line in several passes. A character stands for itself, outside quotes or between
them, or only changes how the next ones are read (`Mode.emits`, `Mode.next`). Reading stops at two
dashes outside quotes that no symbol parts (`readOn`); the symbols are then cut at the blanks
outside quotes, a dash outside quotes goes from the end of each piece, and pieces that are left
empty go (`tokensOf`). The scan of a line, with the dash that it holds back, is this reading from
the symbol of that dash (`scan_eq_remaining_readOn`), so the tokens of a line are those of its
symbols (`tokenize_eq_result_readOn`).
-/

set_option autoImplicit false
set_option relaxedAutoImplicit false

namespace CommandScript

namespace Tokens

/-! ### Symbols -/

/-- A character of a line, as it is read outside quotes or between them. -/
inductive Symbol
  | bare (c : Char)
  | quoted (c : Char)
  deriving DecidableEq, Repr

namespace Symbol

/-- The character that a symbol puts into a token. -/
def char : Symbol → Char
  | bare c => c
  | quoted c => c

/-- A dash that may be held back. -/
def dash : Symbol := bare '-'

/-- Whether a symbol parts tokens. -/
def isBlank (symbol : Symbol) : Bool := symbol == bare ' ' || symbol == bare '\t'

theorem isBlank_bare_iff {c : Char} : (bare c).isBlank = true ↔ c = ' ' ∨ c = '\t' := by
  simp [isBlank]

theorem bare_eq_dash_iff {c : Char} : bare c = dash ↔ c = '-' := by
  simp [dash]

theorem quoted_ne_dash (c : Char) : quoted c ≠ dash := by
  simp [dash]

end Symbol

open Tokens.Symbol

/-- The symbol that a character stands for, if any. -/
def Mode.emits : Mode → Char → List Symbol
  | .plain, c => if c = '"' then [] else [.bare c]
  | .quoted, c => if c = '\\' ∨ c = '"' then [] else [.quoted c]
  | .escaped, c => [.quoted c]

/-- How the character behind a character is read. -/
def Mode.next : Mode → Char → Mode
  | .plain, c => if c = '"' then .quoted else .plain
  | .quoted, c => if c = '\\' then .escaped else if c = '"' then .plain else .quoted
  | .escaped, _ => .quoted

/-! ### The passes -/

/-- What was read of a line: the symbols, and how a next character would be read, unless the line
was left at two dashes. -/
structure Reading where
  symbols : List Symbol
  ended? : Option Mode

/-- Reads on behind some symbols, up to the end of the line or to two dashes, which are no part of
what was read. -/
def readOn : Mode → List Symbol → List Char → Reading
  | mode, symbols, [] => { symbols, ended? := some mode }
  | mode, symbols, c :: rest =>
    if [dash, dash] <:+ symbols ++ mode.emits c then
      { symbols := (symbols ++ mode.emits c).dropLast.dropLast, ended? := none }
    else readOn (mode.next c) (symbols ++ mode.emits c) rest

/-- A piece without the dash at its end. -/
def trimDash (piece : List Symbol) : List Symbol :=
  if piece.getLast? = some dash then piece.dropLast else piece

/-- The pieces between blanks, without the dashes at their ends. -/
def piecesOf (symbols : List Symbol) : List (List Symbol) :=
  (symbols.splitOnP isBlank).map trimDash

/-- The tokens that pieces make, of which those that are empty make none. -/
def tokensIn (pieces : List (List Symbol)) : List (List Char) :=
  (pieces.filter fun piece ↦ !piece.isEmpty).map fun piece ↦ piece.map char

/-- The tokens that symbols make. -/
def tokensOf (symbols : List Symbol) : List (List Char) := tokensIn (piecesOf symbols)

/-- The tokens of a line that was read like this, or what it leaves open. -/
def Reading.result (reading : Reading) : Except Unterminated (List (List Char)) :=
  match reading.ended? with
  | some .escaped => .error .escape
  | some .quoted => .error .quote
  | some .plain | none => .ok (tokensOf reading.symbols)

/-! ### What symbols leave of a line -/

/-- What symbols make of a line whose reading is under way. -/
def remainingOf (symbols : List Symbol) : Remaining :=
  { word := ((piecesOf symbols).headD []).map char, later := tokensIn (piecesOf symbols).tail }

def Reading.remaining (reading : Reading) : Except Unterminated Remaining :=
  match reading.ended? with
  | some .escaped => .error .escape
  | some .quoted => .error .quote
  | some .plain | none => .ok (remainingOf reading.symbols)

/-- The symbol of a dash that is held back. -/
def heldSymbols (held : Bool) : List Symbol := if held then [dash] else []

section Pieces

variable {symbol : Symbol} {symbols : List Symbol} (held : Bool)

theorem piecesOf_ne_nil (symbols : List Symbol) : piecesOf symbols ≠ [] := by
  unfold piecesOf
  rw [ne_eq, List.map_eq_nil_iff]
  exact List.splitOnP_ne_nil _ symbols

theorem toList_remainingOf (symbols : List Symbol) :
    (remainingOf symbols).toList = tokensOf symbols := by
  obtain ⟨piece, later, hpieces⟩ := List.exists_cons_of_ne_nil (piecesOf_ne_nil symbols)
  unfold remainingOf tokensOf tokensIn Remaining.toList
  rw [hpieces, List.filter_cons]
  cases piece <;> rfl

theorem trimDash_heldSymbols : trimDash (heldSymbols held) = [] := by
  cases held <;> rfl

theorem trimDash_append_cons (hdash : symbol ≠ dash) (front piece : List Symbol) :
    trimDash (front ++ symbol :: piece) = front ++ symbol :: trimDash piece := by
  unfold trimDash
  cases piece with
  | nil =>
    rw [List.getLast?_concat, if_neg (fun h ↦ hdash (Option.some.inj h))]
    rfl
  | cons next piece =>
    have hlast : (front ++ symbol :: next :: piece).getLast? = (next :: piece).getLast? := by
      rw [List.getLast?_append_of_ne_nil _ (List.cons_ne_nil _ _), List.getLast?_cons_cons]
    rw [hlast]
    split_ifs with h
    · rw [List.dropLast_append_of_ne_nil (List.cons_ne_nil _ _)]
      rfl
    · rfl

theorem isBlank_of_mem_heldSymbols (h : symbol ∈ heldSymbols held) : symbol.isBlank = false := by
  cases held with
  | false => cases h
  | true =>
    rw [List.mem_singleton.mp h]
    rfl

/-- A blank ends the piece in front of it, and this is empty if it is a dash at most. -/
theorem remainingOf_blank (hblank : symbol.isBlank = true) :
    remainingOf (heldSymbols held ++ symbol :: symbols) = (remainingOf symbols).close := by
  have hpieces : piecesOf (heldSymbols held ++ symbol :: symbols) = [] :: piecesOf symbols := by
    unfold piecesOf
    rw [List.splitOnP_append_cons_of_forall_mem (fun _ ↦ isBlank_of_mem_heldSymbols held) _ hblank,
      List.map_cons, trimDash_heldSymbols]
  unfold Remaining.close
  rw [toList_remainingOf]
  unfold remainingOf tokensOf
  rw [hpieces]
  rfl

/-- What is no blank and no dash joins the piece behind it, with a dash in front of it. -/
theorem remainingOf_content (hblank : symbol.isBlank = false) (hdash : symbol ≠ dash) :
    remainingOf (heldSymbols held ++ symbol :: symbols) =
      (remainingOf symbols).push held symbol.char := by
  obtain ⟨piece, later, hsplit⟩ :=
    List.exists_cons_of_ne_nil (List.splitOnP_ne_nil isBlank symbols)
  have hpieces : (heldSymbols held ++ symbol :: symbols).splitOnP isBlank =
      (heldSymbols held ++ symbol :: piece) :: later := by
    have hheld : isBlank dash = false := rfl
    cases held <;>
      simp [heldSymbols, List.splitOnP_cons_eq_if_modifyHead, hblank, hheld, hsplit]
  unfold remainingOf piecesOf
  rw [hpieces, hsplit, List.map_cons, List.map_cons, trimDash_append_cons hdash]
  cases held <;> rfl

end Pieces

/-! ### The reading of a line -/

section Reading

variable {mode : Mode} {symbol : Symbol} {symbols front : List Symbol} {line : List Char}

theorem pair_suffix_concat_iff {α : Type} {a last : α} {items : List α} :
    [a, a] <:+ items ++ [last] ↔ items.getLast? = some a ∧ last = a := by
  rw [← List.singleton_suffix_iff_getLast?_eq_some, eq_comm, ← List.singleton_inj]
  change [a] ++ [a] <:+ items ++ [last] ↔ _
  exact List.suffix_append_inj_of_length_eq rfl

/-- A symbol that is no dash keeps the dashes on both sides of it apart. -/
theorem dashes_suffix_append_iff (hfront : front.getLast? ≠ some dash) :
    [dash, dash] <:+ front ++ symbols ↔ [dash, dash] <:+ symbols := by
  refine ⟨fun h ↦ ?_, List.suffix_append_of_suffix⟩
  rcases List.eq_nil_or_concat symbols with rfl | ⟨earlier, last, rfl⟩
  · rw [List.append_nil] at h
    have hlast : [dash] <:+ front := (List.suffix_append [dash] [dash]).trans h
    exact absurd (List.singleton_suffix_iff_getLast?_eq_some.mp hlast) hfront
  · rw [List.concat_eq_append] at h ⊢
    rw [← List.append_assoc, pair_suffix_concat_iff, List.getLast?_append, Option.or_eq_some_iff]
      at h
    rw [pair_suffix_concat_iff]
    exact ⟨h.1.resolve_right fun hfirst ↦ hfront hfirst.2, h.2⟩

/-- What stands in front of the symbols of a reading, and ends with no dash, stays there. -/
theorem readOn_append (hfront : front.getLast? ≠ some dash) :
    readOn mode (front ++ symbols) line =
      { symbols := front ++ (readOn mode symbols line).symbols
        ended? := (readOn mode symbols line).ended? } := by
  induction line generalizing mode symbols with
  | nil => rfl
  | cons c rest ih =>
    unfold readOn
    simp only [List.append_assoc, dashes_suffix_append_iff hfront]
    split_ifs with h
    · obtain ⟨earlier, hearlier⟩ := h
      rw [← hearlier]
      simp
    · exact ih

theorem not_dashes_suffix_heldSymbols (held : Bool) : ¬ [dash, dash] <:+ heldSymbols held := by
  cases held <;> decide

theorem readOn_cons_of_emits_nil {c : Char} (held : Bool) (hemits : mode.emits c = []) :
    readOn mode (heldSymbols held) (c :: line) = readOn (mode.next c) (heldSymbols held) line := by
  rw [readOn, hemits, List.append_nil, if_neg (not_dashes_suffix_heldSymbols held)]

theorem readOn_cons_of_emits {c : Char} (hemits : mode.emits c = [symbol])
    (hdash : symbol ≠ dash) :
    readOn mode symbols (c :: line) = readOn (mode.next c) (symbols ++ [symbol]) line := by
  rw [readOn, hemits, if_neg fun h ↦ hdash (pair_suffix_concat_iff.mp h).2]

/-- What a symbol that is no dash adds, it adds in front of what the rest of the line leaves. -/
theorem remaining_readOn_concat {add : Remaining → Remaining} {held : Bool} (hdash : symbol ≠ dash)
    (hadd : ∀ symbols, remainingOf (heldSymbols held ++ symbol :: symbols) =
      add (remainingOf symbols)) :
    (readOn mode (heldSymbols held ++ [symbol]) line).remaining =
      add <$> (readOn mode (heldSymbols false) line).remaining := by
  have hlast : (heldSymbols held ++ [symbol]).getLast? ≠ some dash := by
    rw [List.getLast?_concat]
    exact fun h ↦ hdash (Option.some.inj h)
  rw [← List.append_nil (heldSymbols held ++ [symbol]), readOn_append hlast]
  change Reading.remaining { symbols := _, ended? := (readOn mode [] line).ended? } =
    add <$> (readOn mode [] line).remaining
  obtain ⟨later, ended?⟩ := readOn mode [] line
  unfold Reading.remaining
  rw [List.append_assoc, List.singleton_append]
  rcases ended? with - | (- | - | -)
  · exact congrArg Except.ok (hadd later)
  · exact congrArg Except.ok (hadd later)
  · rfl
  · rfl

/-- The scan of a line is its reading in passes, from the symbol of the dash that is held back. -/
theorem scan_eq_remaining_readOn (mode : Mode) (held : Bool) (line : List Char) :
    scan mode held line = (readOn mode (heldSymbols held) line).remaining := by
  induction line generalizing mode held with
  | nil => cases mode <;> cases held <;> rfl
  | cons c rest ih =>
    -- Marks leave the dash as it is, and a symbol that stays takes it along.
    have hmark {mode : Mode} (hemits : mode.emits c = []) :
        (readOn mode (heldSymbols held) (c :: rest)).remaining =
          scan (mode.next c) held rest := by
      rw [readOn_cons_of_emits_nil held hemits, ih]
    have hcontent {mode : Mode} {symbol : Symbol} (hemits : mode.emits c = [symbol])
        (hblank : symbol.isBlank = false) (hdash : symbol ≠ dash) :
        (readOn mode (heldSymbols held) (c :: rest)).remaining =
          (·.push held symbol.char) <$> scan (mode.next c) false rest := by
      rw [readOn_cons_of_emits hemits hdash, ih]
      exact remaining_readOn_concat hdash fun _ ↦ remainingOf_content held hblank hdash
    cases mode with
    | escaped =>
      have hemits : Mode.escaped.emits c = [quoted c] := rfl
      exact (hcontent hemits rfl (quoted_ne_dash c)).symm
    | quoted =>
      unfold scan
      split_ifs with hbackslash hquote
      · have hemits : Mode.quoted.emits c = [] := if_pos (.inl hbackslash)
        have hnext : Mode.quoted.next c = .escaped := if_pos hbackslash
        rw [hmark hemits, hnext]
      · have hemits : Mode.quoted.emits c = [] := if_pos (.inr hquote)
        have hnext : Mode.quoted.next c = .plain := by
          rw [Mode.next, if_neg hbackslash, if_pos hquote]
        rw [hmark hemits, hnext]
      · have hemits : Mode.quoted.emits c = [quoted c] := if_neg (not_or.mpr ⟨hbackslash, hquote⟩)
        have hnext : Mode.quoted.next c = .quoted := by
          rw [Mode.next, if_neg hbackslash, if_neg hquote]
        rw [hcontent hemits rfl (quoted_ne_dash c), hnext]
        rfl
    | plain =>
      unfold scan
      split_ifs with hquote hdash hheld hblank
      · have hemits : Mode.plain.emits c = [] := if_pos hquote
        have hnext : Mode.plain.next c = .quoted := if_pos hquote
        rw [hmark hemits, hnext]
      · subst hdash hheld
        rfl
      · subst hdash
        rw [Bool.eq_false_iff.mpr hheld, ih]
        rfl
      · have hemits : Mode.plain.emits c = [bare c] := if_neg hquote
        have hnext : Mode.plain.next c = .plain := if_neg hquote
        have hbare : bare c ≠ dash := mt bare_eq_dash_iff.mp hdash
        rw [readOn_cons_of_emits hemits hbare, hnext, ih]
        exact (remaining_readOn_concat hbare fun _ ↦
          remainingOf_blank held (isBlank_bare_iff.mpr hblank)).symm
      · have hemits : Mode.plain.emits c = [bare c] := if_neg hquote
        have hnext : Mode.plain.next c = .plain := if_neg hquote
        have hfull : (bare c).isBlank = false :=
          Bool.eq_false_iff.mpr (mt isBlank_bare_iff.mp hblank)
        rw [hcontent hemits hfull (mt bare_eq_dash_iff.mp hdash), hnext]
        rfl

theorem toList_remaining (reading : Reading) :
    (·.toList) <$> reading.remaining = reading.result := by
  obtain ⟨symbols, ended?⟩ := reading
  unfold Reading.remaining Reading.result
  rcases ended? with - | (- | - | -)
  · exact congrArg Except.ok (toList_remainingOf symbols)
  · exact congrArg Except.ok (toList_remainingOf symbols)
  · rfl
  · rfl

/-- The tokens that a scan leaves are those of the symbols that are read in passes. -/
theorem toList_scan (mode : Mode) (held : Bool) (line : List Char) :
    (·.toList) <$> scan mode held line = (readOn mode (heldSymbols held) line).result := by
  rw [scan_eq_remaining_readOn, toList_remaining]

end Reading

/-- The tokens of a line are those of its symbols, up to two dashes that no symbol parts; a quote
that is open at the end is reported if there is no such pair. -/
theorem tokenize_eq_result_readOn (line : List Char) :
    tokenize line = (readOn .plain [] line).result :=
  toList_scan .plain false line

/-- A dash waits through quote marks and joins what comes behind them. -/
example : tokenize "-\"a b\" - c--\"".toList = .ok ["-a b".toList, "c".toList] := by decide

end Tokens

end CommandScript
