import CommandScript.Proofs.DoubleDash
import CommandScript.Proofs.QuotedTokens
/-!
# Tokens that are settled

What stands behind a line that can be read does not change the tokens that it has. If dashes meet in
the line, nothing that is added to it is read. Otherwise the line ends outside quotes, and a blank
behind it starts afresh: it drops a dash that is held back and ends the token under way, so that
what follows is read as a line of its own (`tokenize_append_separator`).
-/

set_option autoImplicit false
set_option relaxedAutoImplicit false

namespace CommandScript

namespace Tokens

open Tokens.Symbol

/-! ### Symbols on both sides of a blank -/

section Symbols

variable {blank : Symbol}

theorem piecesOf_append_cons (hblank : blank.isBlank = true) (before after : List Symbol) :
    piecesOf (before ++ blank :: after) = piecesOf before ++ piecesOf after := by
  unfold piecesOf
  rw [List.splitOnP_append_cons before after hblank, List.map_append]

theorem tokensOf_append_cons (hblank : blank.isBlank = true) (before after : List Symbol) :
    tokensOf (before ++ blank :: after) = tokensOf before ++ tokensOf after := by
  unfold tokensOf tokensIn
  rw [piecesOf_append_cons hblank, List.filter_append, List.map_append]

theorem ne_dash_of_isBlank (hblank : blank.isBlank = true) : blank ≠ dash := by
  rintro rfl
  cases hblank

/-- Behind a blank the rest of a line is read as if it were a line of its own. -/
theorem result_readOn_concat (hblank : blank.isBlank = true) (before : List Symbol)
    (line : List Char) :
    (readOn .plain (before ++ [blank]) line).result =
      (tokensOf before ++ ·) <$> (readOn .plain [] line).result := by
  have hlast : (before ++ [blank]).getLast? ≠ some dash := by
    rw [List.getLast?_concat]
    exact fun h ↦ ne_dash_of_isBlank hblank (Option.some.inj h)
  rw [← List.append_nil (before ++ [blank]), readOn_append hlast, List.append_assoc,
    List.singleton_append]
  obtain ⟨after, ended?⟩ := readOn .plain [] line
  unfold Reading.result
  rcases ended? with - | (- | - | -)
  · exact congrArg Except.ok (tokensOf_append_cons hblank before after)
  · exact congrArg Except.ok (tokensOf_append_cons hblank before after)
  · rfl
  · rfl

end Symbols

/-! ### Lines on both sides of a blank -/

section Lines

variable {line : List Char}

theorem emits_separator {c : Char} (hc : isSeparator c = true) :
    Mode.plain.emits c = [bare c] ∧ Mode.plain.next c = .plain ∧ (bare c).isBlank = true := by
  rcases isSeparator_iff.mp hc with rfl | rfl
  · exact ⟨rfl, rfl, rfl⟩
  · exact ⟨rfl, rfl, rfl⟩

theorem tokenize_append_separator {c : Char} (h : ¬ HasMeetingDashes line)
    (hmode : modeAfter .plain line = .plain) (hc : isSeparator c = true) (rest : List Char) :
    tokenize (line ++ c :: rest) =
      (tokensOf (symbolsOf .plain line) ++ ·) <$> tokenize rest := by
  obtain ⟨hemits, hnext, hblank⟩ := emits_separator hc
  have hread : readOn .plain [] (line ++ c :: rest) =
      readOn .plain (symbolsOf .plain line) (c :: rest) := by
    rw [readOn_append_of_no_pair (mt hasMeetingDashes_iff.mpr h), hmode, List.nil_append]
  calc tokenize (line ++ c :: rest)
    _ = (readOn .plain (symbolsOf .plain line) (c :: rest)).result := by
      rw [← hread]
      exact toList_scan .plain false _
    _ = (readOn .plain (symbolsOf .plain line ++ [bare c]) rest).result := by
      rw [readOn_cons_of_emits hemits (ne_dash_of_isBlank hblank), hnext]
    _ = (tokensOf (symbolsOf .plain line) ++ ·) <$> (readOn .plain [] rest).result :=
      result_readOn_concat hblank _ rest
    _ = (tokensOf (symbolsOf .plain line) ++ ·) <$> tokenize rest :=
      congrArg _ (toList_scan .plain false rest).symm

end Lines

/-- The tokens of a line that can be read stay as they are, whatever is added to it. If dashes meet
in the line, nothing that is added is read. Otherwise what is added behind a blank is read as by
itself: its tokens come behind those of the line, and if it cannot be read, the whole fails as it
does. -/
theorem tokenize_settled {line : List Char} {tokens : List (List Char)}
    (h : tokenize line = .ok tokens) :
    HasMeetingDashes line ∧ (∀ rest, tokenize (line ++ rest) = .ok tokens) ∨
      ¬ HasMeetingDashes line ∧ ∀ c, isSeparator c = true → ∀ rest,
        tokenize (line ++ c :: rest) = (tokens ++ ·) <$> tokenize rest := by
  by_cases hdashes : HasMeetingDashes line
  · exact .inl ⟨hdashes, fun rest ↦ (tokenize_append_of_hasMeetingDashes hdashes rest).trans h⟩
  · obtain ⟨hmode, rfl⟩ := (tokenize_eq_ok_iff hdashes).mp h
    exact .inr ⟨hdashes, fun c hc rest ↦ tokenize_append_separator hdashes hmode hc rest⟩

/-- The dash that waits behind the quote marks does not meet the one behind the tab. -/
theorem tokenize_settled_heldDash :
    tokenize "say -\"\"".toList = .ok ["say".toList] ∧
      ∀ rest, tokenize ("say -\"\"".toList ++ '\t' :: rest) =
        (["say".toList] ++ ·) <$> tokenize rest := by
  have hread : tokenize "say -\"\"".toList = .ok ["say".toList] := by decide
  have hdashes : ¬ HasMeetingDashes "say -\"\"".toList := by decide
  obtain ⟨-, hsettled⟩ := (tokenize_settled hread).resolve_left fun h ↦ hdashes h.1
  exact ⟨hread, hsettled '\t' rfl⟩

end Tokens

end CommandScript
