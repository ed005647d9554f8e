import CommandScript.Proofs.LineSymbols
/-!
# Lines that are read to their end

Two dashes outside quotes drop the rest of a line if they stand side by side once all quote marks
are taken out (`HasMeetingDashes`); then no symbol parts them (`hasMeetingDashes_iff`). Without such
a pair a line is read to its end: it fails exactly if it ends between quotes, and what is read
between quotes, and outside them what is neither a blank nor a dash, is in the tokens, in order
(`IsReadToEnd`). Dashes that are next to one another in the line meet, but they are not the only
ones: a pair with quote marks between hides the rest of the line as well
(`not_isReadToEnd_quoteMarks`).
-/

set_option autoImplicit false
set_option relaxedAutoImplicit false

namespace CommandScript

namespace Tokens

open Tokens.Symbol

/-! ### All symbols of a line -/

/-- The characters of a line, with how each of them is read. -/
def marked : Mode → List Char → List (Mode × Char)
  | _, [] => []
  | mode, c :: rest => (mode, c) :: marked (mode.next c) rest

/-- The symbols of a line, also behind two dashes. -/
def symbolsOf (mode : Mode) (line : List Char) : List Symbol :=
  (marked mode line).flatMap fun (mode, c) ↦ mode.emits c

/-- How a character behind the line would be read. -/
def modeAfter (mode : Mode) (line : List Char) : Mode := line.foldl Mode.next mode

/-- Whether a character opens or closes a quote. -/
def isQuoteMark (character : Mode × Char) : Bool :=
  character.1 != .escaped && character.2 == '"'

/-- The characters of a line that are no quote marks. -/
def bodyOf (mode : Mode) (line : List Char) : List (Mode × Char) :=
  (marked mode line).filter fun character ↦ !isQuoteMark character

/-- A dash outside quotes. -/
def markedDash : Mode × Char := (.plain, '-')

/-- Two dashes stand side by side outside quotes. -/
def HasAdjacentDashes (line : List Char) : Prop :=
  [markedDash, markedDash] <:+: marked .plain line

/-- Two dashes stand outside quotes with nothing but quote marks between them. -/
def HasMeetingDashes (line : List Char) : Prop :=
  [markedDash, markedDash] <:+: bodyOf .plain line

instance (line : List Char) : Decidable (HasAdjacentDashes line) :=
  inferInstanceAs (Decidable (_ <:+: _))

instance (line : List Char) : Decidable (HasMeetingDashes line) :=
  inferInstanceAs (Decidable (_ <:+: _))

/-- Whether a symbol always gets into a token: it is read between quotes, or it is neither a blank
nor a dash. -/
def Symbol.isContent (symbol : Symbol) : Bool := !symbol.isBlank && symbol != dash

/-- A line is read to its end: it fails exactly if it ends between quotes, and otherwise its tokens
are made of symbols of the line, in order, among them all that always get into a token. -/
structure IsReadToEnd (line : List Char) : Prop where
  fails_iff : (∃ what, tokenize line = .error what) ↔ modeAfter .plain line ≠ .plain
  keeps : ∀ tokens, tokenize line = .ok tokens →
    ∃ kept : List Symbol, kept.Sublist (symbolsOf .plain line) ∧
      kept.filter isContent = (symbolsOf .plain line).filter isContent ∧
        tokens.flatten = kept.map char

section Symbols

theorem symbolsOf_cons (mode : Mode) (c : Char) (line : List Char) :
    symbolsOf mode (c :: line) = mode.emits c ++ symbolsOf (mode.next c) line :=
  List.flatMap_cons

theorem symbolsOf_concat (mode : Mode) (line : List Char) (c : Char) :
    symbolsOf mode (line ++ [c]) = symbolsOf mode line ++ (modeAfter mode line).emits c := by
  induction line generalizing mode with
  | nil => simp [symbolsOf, marked, modeAfter]
  | cons d line ih =>
    rw [List.cons_append, symbolsOf_cons, symbolsOf_cons, ih, List.append_assoc]
    rfl

theorem modeAfter_concat (mode : Mode) (line : List Char) (c : Char) :
    modeAfter mode (line ++ [c]) = (modeAfter mode line).next c :=
  List.foldl_concat ..

/-- A character stands for one symbol at most. -/
theorem emits_eq_nil_or_singleton (mode : Mode) (c : Char) :
    mode.emits c = [] ∨ ∃ symbol, mode.emits c = [symbol] := by
  cases mode with
  | escaped => exact .inr ⟨quoted c, rfl⟩
  | plain | quoted =>
    dsimp only [Mode.emits]
    split_ifs
    · exact .inl rfl
    · exact .inr ⟨_, rfl⟩

theorem marked_concat (mode : Mode) (line : List Char) (c : Char) :
    marked mode (line ++ [c]) = marked mode line ++ [(modeAfter mode line, c)] := by
  induction line generalizing mode with
  | nil => rfl
  | cons d line ih =>
    rw [List.cons_append, marked, ih]
    rfl

end Symbols

/-! ### Dashes that meet -/

section Meeting

theorem bodyOf_concat (mode : Mode) (line : List Char) (c : Char) :
    bodyOf mode (line ++ [c]) =
      bodyOf mode line ++ if isQuoteMark (modeAfter mode line, c) then [] else
        [(modeAfter mode line, c)] := by
  unfold bodyOf
  rw [marked_concat, List.filter_append, List.filter_singleton]
  cases isQuoteMark (modeAfter mode line, c) <;> rfl

theorem emits_of_isQuoteMark {mode : Mode} {c : Char} (h : isQuoteMark (mode, c) = true) :
    mode.emits c = [] := by
  obtain ⟨hmode, hquote⟩ : mode ≠ .escaped ∧ c = '"' := by simpa [isQuoteMark] using h
  subst hquote
  cases mode with
  | plain | quoted => rfl
  | escaped => exact absurd rfl hmode

theorem ne_markedDash {mode : Mode} {c : Char} (h : mode ≠ .plain) : (mode, c) ≠ markedDash :=
  fun hdash ↦ h (congrArg Prod.fst hdash)

/-- The only character that is neither a quote mark nor a symbol is the backslash between quotes. -/
theorem emits_of_next_eq_escaped {mode : Mode} {c : Char} (h : mode.next c = .escaped) :
    mode.emits c = [] ∧ (mode, c) ≠ markedDash := by
  cases mode with
  | plain =>
    rw [Mode.next] at h
    split_ifs at h
  | quoted =>
    rw [Mode.next] at h
    split_ifs at h with hbackslash
    exact ⟨if_pos (.inl hbackslash), ne_markedDash (by decide)⟩
  | escaped => cases h

theorem exists_emits {mode : Mode} {c : Char} (hmark : isQuoteMark (mode, c) ≠ true)
    (hnext : mode.next c ≠ .escaped) :
    ∃ symbol, mode.emits c = [symbol] ∧ ((mode, c) = markedDash ↔ symbol = dash) := by
  cases mode with
  | plain =>
    have hquote : c ≠ '"' := by simpa [isQuoteMark] using hmark
    exact ⟨bare c, if_neg hquote, by simp [markedDash, dash]⟩
  | quoted =>
    have hquote : c ≠ '"' := by simpa [isQuoteMark] using hmark
    have hbackslash : c ≠ '\\' := fun h ↦ hnext (if_pos h)
    exact ⟨quoted c, if_neg (not_or.mpr ⟨hbackslash, hquote⟩),
      iff_of_false (ne_markedDash (by decide)) (quoted_ne_dash c)⟩
  | escaped =>
    exact ⟨quoted c, rfl, iff_of_false (ne_markedDash (by decide)) (quoted_ne_dash c)⟩

/-- Unless a backslash came last, a dash is the last symbol if it is the last character that is no
quote mark. -/
theorem getLast?_bodyOf_iff {line : List Char} (hmode : modeAfter .plain line ≠ .escaped) :
    (bodyOf .plain line).getLast? = some markedDash ↔
      (symbolsOf .plain line).getLast? = some dash := by
  induction line using List.reverseRec with
  | nil => exact iff_of_false nofun nofun
  | append_singleton line c ih =>
    rw [modeAfter_concat] at hmode
    rw [bodyOf_concat, symbolsOf_concat]
    by_cases hmark : isQuoteMark (modeAfter .plain line, c) = true
    · have hbefore : modeAfter .plain line ≠ .escaped := by
        intro hescaped
        rw [hescaped] at hmark
        cases hmark
      rw [if_pos hmark, emits_of_isQuoteMark hmark, List.append_nil, List.append_nil]
      exact ih hbefore
    · obtain ⟨symbol, hemits, hdash⟩ := exists_emits hmark hmode
      rw [if_neg hmark, hemits, List.getLast?_concat, List.getLast?_concat, Option.some_inj,
        Option.some_inj]
      exact hdash

/-- Dashes meet exactly if no symbol parts them. -/
theorem hasMeetingDashes_iff {line : List Char} :
    HasMeetingDashes line ↔ [dash, dash] <:+: symbolsOf .plain line := by
  unfold HasMeetingDashes
  induction line using List.reverseRec with
  | nil => decide
  | append_singleton line c ih =>
    rw [bodyOf_concat, symbolsOf_concat]
    by_cases hmark : isQuoteMark (modeAfter .plain line, c) = true
    · rw [if_pos hmark, emits_of_isQuoteMark hmark, List.append_nil, List.append_nil]
      exact ih
    · rw [if_neg hmark, List.infix_concat_iff, pair_suffix_concat_iff]
      by_cases hnext : (modeAfter .plain line).next c = .escaped
      · obtain ⟨hemits, hdash⟩ := emits_of_next_eq_escaped hnext
        rw [hemits, List.append_nil, ← ih]
        exact or_iff_right fun hpair ↦ hdash hpair.2
      · obtain ⟨symbol, hemits, hdash⟩ := exists_emits hmark hnext
        rw [hemits, List.infix_concat_iff, pair_suffix_concat_iff, ← ih, ← hdash]
        refine or_congr_left (and_congr_left fun hlast ↦ getLast?_bodyOf_iff ?_)
        have hplain : modeAfter .plain line = .plain := congrArg Prod.fst hlast
        rw [hplain]
        exact nofun

end Meeting

/-! ### Reading on behind all symbols so far -/

section ReadOn

variable {mode : Mode} {line : List Char} {symbols : List Symbol}

/-- Without dashes that meet a line is read on behind, from all its symbols. -/
theorem readOn_append_of_no_pair (h : ¬ [dash, dash] <:+: symbols ++ symbolsOf mode line)
    (rest : List Char) :
    readOn mode symbols (line ++ rest) =
      readOn (modeAfter mode line) (symbols ++ symbolsOf mode line) rest := by
  induction line generalizing mode symbols with
  | nil => simp [symbolsOf, marked, modeAfter]
  | cons c line ih =>
    rw [symbolsOf_cons, ← List.append_assoc] at h ⊢
    have hnot : ¬ [dash, dash] <:+ symbols ++ mode.emits c := fun hsuffix ↦
      h (hsuffix.isInfix.trans (List.prefix_append _ _).isInfix)
    rw [List.cons_append, readOn, if_neg hnot, ih h]
    rfl

theorem readOn_of_not_infix (h : ¬ [dash, dash] <:+: symbols ++ symbolsOf mode line) :
    readOn mode symbols line =
      { symbols := symbols ++ symbolsOf mode line, ended? := some (modeAfter mode line) } := by
  have hread := readOn_append_of_no_pair h []
  rwa [List.append_nil] at hread

/-- Two dashes that meet end the reading, whatever stands behind the line. -/
theorem readOn_of_infix (hbefore : ¬ [dash, dash] <:+: symbols)
    (h : [dash, dash] <:+: symbols ++ symbolsOf mode line) (rest : List Char) :
    readOn mode symbols (line ++ rest) = readOn mode symbols line := by
  induction line generalizing mode symbols with
  | nil =>
    rw [show symbolsOf mode [] = [] from rfl, List.append_nil] at h
    exact absurd h hbefore
  | cons c line ih =>
    rw [symbolsOf_cons, ← List.append_assoc] at h
    rw [List.cons_append, readOn, readOn]
    split_ifs with hends
    · rfl
    · refine ih ?_ h
      obtain hemits | ⟨symbol, hemits⟩ := emits_eq_nil_or_singleton mode c
      · rw [hemits, List.append_nil]
        exact hbefore
      · rw [hemits] at hends ⊢
        rw [List.infix_concat_iff]
        exact not_or.mpr ⟨hends, hbefore⟩

end ReadOn

section Lines

variable {line : List Char}

theorem tokenize_of_not_hasMeetingDashes (h : ¬ HasMeetingDashes line) :
    tokenize line = Reading.result
      { symbols := symbolsOf .plain line, ended? := some (modeAfter .plain line) } := by
  have hread : readOn .plain [] line =
      { symbols := symbolsOf .plain line, ended? := some (modeAfter .plain line) } :=
    readOn_of_not_infix (mt hasMeetingDashes_iff.mpr h)
  rw [← hread]
  exact toList_scan .plain false line

/-- A line without dashes that meet can be read exactly if it ends outside quotes. -/
theorem tokenize_eq_ok_iff {tokens : List (List Char)} (h : ¬ HasMeetingDashes line) :
    tokenize line = .ok tokens ↔
      modeAfter .plain line = .plain ∧ tokensOf (symbolsOf .plain line) = tokens := by
  rw [tokenize_of_not_hasMeetingDashes h]
  cases modeAfter .plain line with
  | plain => simp [Reading.result]
  | quoted | escaped => simp [Reading.result]

theorem tokenize_append_of_hasMeetingDashes (h : HasMeetingDashes line) (rest : List Char) :
    tokenize (line ++ rest) = tokenize line := by
  have hread : readOn .plain [] (line ++ rest) = readOn .plain [] line := by
    apply readOn_of_infix
    · decide
    · exact hasMeetingDashes_iff.mp h
  calc tokenize (line ++ rest)
    _ = (readOn .plain [] (line ++ rest)).result := toList_scan .plain false _
    _ = (readOn .plain [] line).result := by rw [hread]
    _ = tokenize line := (toList_scan .plain false line).symm

theorem not_hasMeetingDashes_concat_quoteMark (h : ¬ HasMeetingDashes line) :
    ¬ HasMeetingDashes (line ++ ['"']) := by
  rw [hasMeetingDashes_iff] at h ⊢
  rw [symbolsOf_concat]
  cases modeAfter .plain line with
  | plain | quoted => exact (List.append_nil _).symm ▸ h
  | escaped =>
    rw [Mode.emits, List.infix_concat_iff, pair_suffix_concat_iff]
    exact not_or.mpr ⟨fun hsuffix ↦ quoted_ne_dash '"' hsuffix.2, h⟩

/-- A quote mark behind a line that is read to its end changes how it is read. -/
theorem tokenize_concat_quoteMark_ne (h : ¬ HasMeetingDashes line) :
    tokenize (line ++ ['"']) ≠ tokenize line := by
  rw [tokenize_of_not_hasMeetingDashes (not_hasMeetingDashes_concat_quoteMark h),
    tokenize_of_not_hasMeetingDashes h, modeAfter_concat]
  cases modeAfter .plain line <;> exact nofun

/-- Dashes that meet are exactly what hides all that stands behind a line. -/
theorem hasMeetingDashes_iff_truncates :
    HasMeetingDashes line ↔ ∀ rest, tokenize (line ++ rest) = tokenize line := by
  refine ⟨tokenize_append_of_hasMeetingDashes, fun htruncates ↦ ?_⟩
  by_contra h
  exact tokenize_concat_quoteMark_ne h (htruncates ['"'])

theorem HasAdjacentDashes.hasMeetingDashes (h : HasAdjacentDashes line) :
    HasMeetingDashes line :=
  h.filter fun character ↦ !isQuoteMark character

end Lines

/-! ### What the tokens are made of -/

section Content

theorem flatten_splitOnP_isBlank (symbols : List Symbol) :
    (symbols.splitOnP isBlank).flatten = symbols.filter fun symbol ↦ !symbol.isBlank := by
  induction symbols with
  | nil => rfl
  | cons symbol symbols ih =>
    rw [List.splitOnP_cons_eq_if_modifyHead]
    split_ifs with hblank
    · rw [List.flatten_cons, ih, List.filter_cons_of_neg (by simp [hblank])]
      rfl
    · obtain ⟨piece, later, hsplit⟩ :=
        List.exists_cons_of_ne_nil (List.splitOnP_ne_nil isBlank symbols)
      rw [List.filter_cons_of_pos (by simp [hblank]), ← ih, hsplit]
      rfl

theorem trimDash_sublist (piece : List Symbol) : (trimDash piece).Sublist piece := by
  unfold trimDash
  split_ifs
  · exact List.dropLast_sublist piece
  · exact List.Sublist.refl piece

theorem filter_isContent_trimDash (piece : List Symbol) :
    (trimDash piece).filter isContent = piece.filter isContent := by
  unfold trimDash
  split_ifs with hlast
  · conv_rhs => rw [← List.dropLast_append_getLast? dash hlast, List.filter_append]
    exact (List.append_nil _).symm
  · rfl

theorem sublist_flatten_map_trimDash (pieces : List (List Symbol)) :
    (pieces.map trimDash).flatten.Sublist pieces.flatten := by
  induction pieces with
  | nil => exact List.Sublist.refl []
  | cons piece pieces ih => exact (trimDash_sublist piece).append ih

theorem sublist_flatten_piecesOf (symbols : List Symbol) :
    (piecesOf symbols).flatten.Sublist symbols := by
  apply (sublist_flatten_map_trimDash (symbols.splitOnP isBlank)).trans
  rw [flatten_splitOnP_isBlank]
  exact List.filter_sublist

theorem filter_isContent_flatten_piecesOf (symbols : List Symbol) :
    (piecesOf symbols).flatten.filter isContent = symbols.filter isContent := by
  have htrim : List.filter isContent ∘ trimDash = List.filter isContent :=
    funext filter_isContent_trimDash
  unfold piecesOf
  rw [List.filter_flatten, List.map_map, htrim, ← List.filter_flatten, flatten_splitOnP_isBlank,
    List.filter_filter]
  congr 1
  ext symbol
  unfold isContent
  cases symbol.isBlank <;> simp

theorem flatten_tokensOf (symbols : List Symbol) :
    (tokensOf symbols).flatten = (piecesOf symbols).flatten.map char := by
  unfold tokensOf tokensIn
  rw [← List.map_flatten, List.flatten_filter_not_isEmpty]

end Content

theorem isReadToEnd_of_not_hasMeetingDashes {line : List Char} (h : ¬ HasMeetingDashes line) :
    IsReadToEnd line := by
  constructor
  · rw [tokenize_of_not_hasMeetingDashes h]
    cases modeAfter .plain line with
    | plain => exact iff_of_false nofun (· rfl)
    | quoted => exact iff_of_true ⟨.quote, rfl⟩ nofun
    | escaped => exact iff_of_true ⟨.escape, rfl⟩ nofun
  · intro tokens htokens
    obtain ⟨-, rfl⟩ := (tokenize_eq_ok_iff h).mp htokens
    exact ⟨(piecesOf (symbolsOf .plain line)).flatten, sublist_flatten_piecesOf _,
      filter_isContent_flatten_piecesOf _, flatten_tokensOf _⟩

/-- A line that no two dashes meet in is read to its end. Dashes that meet hide all that stands
behind them, and no others do; those that stand side by side meet. -/
theorem isReadToEnd_or_truncates (line : List Char) :
    (¬ HasMeetingDashes line → IsReadToEnd line) ∧
      (HasMeetingDashes line ↔ ∀ rest, tokenize (line ++ rest) = tokenize line) ∧
        (HasAdjacentDashes line → HasMeetingDashes line) :=
  ⟨isReadToEnd_of_not_hasMeetingDashes, hasMeetingDashes_iff_truncates,
    HasAdjacentDashes.hasMeetingDashes⟩

theorem isReadToEnd_quotedDashes :
    ¬ HasMeetingDashes "a \"--\" -b- -".toList ∧ IsReadToEnd "a \"--\" -b- -".toList :=
  have h : ¬ HasMeetingDashes "a \"--\" -b- -".toList := by decide
  ⟨h, (isReadToEnd_or_truncates _).1 h⟩

/-- Quote marks keep dashes apart that meet all the same: the quote that is left open at the end of
this line goes unnoticed. -/
theorem not_isReadToEnd_quoteMarks :
    ¬ HasAdjacentDashes "a -\"\"- \"open".toList ∧
      ¬ IsReadToEnd "a -\"\"- \"open".toList := by
  refine ⟨by decide, fun hread ↦ ?_⟩
  obtain ⟨what, hwhat⟩ := hread.fails_iff.mpr (by decide)
  have htokens : tokenize "a -\"\"- \"open".toList = .ok [['a']] := by decide
  rw [htokens] at hwhat
  cases hwhat

end Tokens

end CommandScript
