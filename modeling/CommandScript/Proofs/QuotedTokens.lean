import CommandScript.Script.Tokens
/-!
# Tokens between quotes

What stands between quotes is read character by character, so the reading of a quoted text is that
of its parts (`Spells`). A character spells itself, except that a quote mark and a backslash need a
backslash in front; behind a backslash any character does (`spells_escape`, `spells_escaped`).
Outside quotes a run of blanks ends the token under way, however long it is (`scan_plain_gap`). So a
line that starts with a plain word and goes on with quoted texts, a blank in front of each, has that
word and the texts that are not empty as its tokens (`tokenize_quoted`).
-/

set_option autoImplicit false
set_option relaxedAutoImplicit false

namespace CommandScript

namespace Tokens

/-- Puts several characters in front. -/
def Remaining.prepend (remaining : Remaining) (chars : List Char) : Remaining :=
  { remaining with word := chars ++ remaining.word }

@[simp]
theorem Remaining.prepend_nil (remaining : Remaining) : remaining.prepend [] = remaining :=
  rfl

theorem Remaining.prepend_append (remaining : Remaining) (first second : List Char) :
    remaining.prepend (first ++ second) = (remaining.prepend second).prepend first := by
  simp [prepend]

/-! ### Between quotes -/

/-- Between quotes, `spelling` reads as `content`, whatever stands behind it. -/
def Spells (spelling content : List Char) : Prop :=
  ∀ rest, scan .quoted false (spelling ++ rest) =
    (·.prepend content) <$> scan .quoted false rest

theorem spells_nil : Spells [] [] := by
  intro rest
  simp

theorem Spells.append {first second content later : List Char} (hfirst : Spells first content)
    (hsecond : Spells second later) : Spells (first ++ second) (content ++ later) := by
  intro rest
  rw [List.append_assoc, hfirst, hsecond]
  cases scan .quoted false rest with
  | error what => rfl
  | ok remaining => exact congrArg Except.ok (remaining.prepend_append content later).symm

theorem spells_flatMap {spelling content : Char → List Char} {chars : List Char}
    (h : ∀ c ∈ chars, Spells (spelling c) (content c)) :
    Spells (chars.flatMap spelling) (chars.flatMap content) := by
  induction chars with
  | nil => exact spells_nil
  | cons c chars ih =>
    exact (h c List.mem_cons_self).append (ih fun d hd ↦ h d (List.mem_cons_of_mem _ hd))

theorem spells_plain {c : Char} (hquote : c ≠ '"') (hbackslash : c ≠ '\\') : Spells [c] [c] := by
  intro rest
  rw [List.singleton_append, scan, if_neg hbackslash, if_neg hquote]
  rfl

theorem spells_escaped (c : Char) : Spells ['\\', c] [c] := by
  intro rest
  rw [List.cons_append, List.singleton_append, scan, if_pos rfl, scan]
  rfl

/-- A character as a quoted text spells it: the quote mark and the backslash behind a backslash. -/
def escape (c : Char) : List Char := if c = '"' ∨ c = '\\' then ['\\', c] else [c]

/-- A text between quotes. -/
def quote (text : List Char) : List Char := '"' :: (text.flatMap escape ++ ['"'])

theorem spells_escape (c : Char) : Spells (escape c) [c] := by
  rw [escape]
  split
  · exact spells_escaped c
  · next hc =>
    rw [not_or] at hc
    exact spells_plain hc.1 hc.2

theorem eq_or_eq_of_mem_escape {c d : Char} (h : d ∈ escape c) : d = '\\' ∨ d = c := by
  rw [escape] at h
  split at h
  · simpa using h
  · exact Or.inr (List.mem_singleton.mp h)

theorem spells_flatMap_escape (text : List Char) : Spells (text.flatMap escape) text := by
  have hparts : ∀ c ∈ text, Spells (escape c) [c] := fun c _ ↦ spells_escape c
  have h := spells_flatMap hparts
  rwa [List.flatMap_singleton'] at h

/-! ### Outside quotes -/

/-- A quoted text goes to the token under way. -/
theorem Spells.scan_plain {spelling content : List Char} (h : Spells spelling content)
    (rest : List Char) :
    scan .plain false ('"' :: (spelling ++ '"' :: rest)) =
      (·.prepend content) <$> scan .plain false rest := by
  rw [scan, if_pos rfl, h, scan, if_neg (by decide), if_pos rfl]

/-- A character that is no quote mark, no dash and no blank stands for itself. -/
def IsPlain (c : Char) : Prop := c ≠ '"' ∧ c ≠ '-' ∧ c ≠ ' ' ∧ c ≠ '\t'

theorem scan_plain_word {word : List Char} (h : ∀ c ∈ word, IsPlain c) (rest : List Char) :
    scan .plain false (word ++ rest) = (·.prepend word) <$> scan .plain false rest := by
  induction word with
  | nil => simp
  | cons c word ih =>
    obtain ⟨hquote, hdash, hspace, htab⟩ := h c List.mem_cons_self
    rw [List.cons_append, scan, if_neg hquote, if_neg hdash, if_neg (not_or.mpr ⟨hspace, htab⟩),
      ih fun d hd ↦ h d (List.mem_cons_of_mem _ hd)]
    cases scan .plain false rest <;> rfl

/-! ### Blanks outside quotes -/

/-- Whether a character parts tokens, outside quotes. -/
def isSeparator (c : Char) : Bool := c == ' ' || c == '\t'

/-- A run of blanks, which may be empty. -/
def IsGap (gap : List Char) : Prop := ∀ c ∈ gap, isSeparator c = true

instance (gap : List Char) : Decidable (IsGap gap) :=
  decidable_of_iff (gap.all isSeparator = true) List.all_eq_true

section Gaps

variable {c : Char} {gap : List Char}

theorem isSeparator_iff : isSeparator c = true ↔ c = ' ' ∨ c = '\t' := by
  simp [isSeparator]

theorem scan_plain_separator (hc : isSeparator c = true) (held : Bool) (rest : List Char) :
    scan .plain held (c :: rest) = (·.close) <$> scan .plain false rest := by
  rcases isSeparator_iff.mp hc with rfl | rfl
  · rfl
  · rfl

/-- A run of blanks ends the token under way once. -/
theorem scan_plain_gap (hgap : IsGap gap) (hne : gap ≠ []) (held : Bool) (rest : List Char) :
    scan .plain held (gap ++ rest) = (·.close) <$> scan .plain false rest := by
  induction gap generalizing held with
  | nil => exact absurd rfl hne
  | cons c gap ih =>
    rw [List.cons_append, scan_plain_separator (hgap c List.mem_cons_self)]
    by_cases hlast : gap = []
    · rw [hlast, List.nil_append]
    · rw [ih (fun d hd ↦ hgap d (List.mem_cons_of_mem _ hd)) hlast]
      cases scan .plain false rest <;> rfl

end Gaps

/-! ### Lines of quoted texts -/

variable {α : Type} {gap spelling content : α → List Char} {args : List α}

/-- Quoted texts with blanks in front of each leave out those that are empty. -/
theorem scan_quoted_args (hgap : ∀ arg ∈ args, IsGap (gap arg) ∧ gap arg ≠ [])
    (h : ∀ arg ∈ args, Spells (spelling arg) (content arg)) :
    scan .plain false (args.flatMap fun arg ↦ gap arg ++ '"' :: (spelling arg ++ ['"'])) =
      .ok { later := (args.map content).filter fun text ↦ !text.isEmpty } := by
  induction args with
  | nil => rfl
  | cons arg args ih =>
    obtain ⟨hblank, hne⟩ := hgap arg List.mem_cons_self
    rw [List.flatMap_cons, List.append_assoc, scan_plain_gap hblank hne, List.cons_append,
      List.append_assoc, List.singleton_append, (h arg List.mem_cons_self).scan_plain,
      ih (fun other hother ↦ hgap other (List.mem_cons_of_mem _ hother))
        fun other hother ↦ h other (List.mem_cons_of_mem _ hother)]
    refine congrArg Except.ok ?_
    cases hcontent : content arg with
    | nil => simp [Remaining.prepend, Remaining.close, Remaining.toList, hcontent]
    | cons c text => simp [Remaining.prepend, Remaining.close, Remaining.toList, hcontent]

/-- The tokens of a line that starts with a plain word and goes on with quoted texts. -/
theorem tokenize_quoted {word : List Char} (hword : ∀ c ∈ word, IsPlain c) (hne : word ≠ [])
    (h : ∀ arg ∈ args, Spells (spelling arg) (content arg)) :
    tokenize (word ++ args.flatMap fun arg ↦ ' ' :: '"' :: (spelling arg ++ ['"'])) =
      .ok (word :: (args.map content).filter fun text ↦ !text.isEmpty) := by
  have hgap : IsGap [' '] ∧ [' '] ≠ [] := by decide
  have hargs := scan_quoted_args (fun _ _ ↦ hgap) h
  simp only [List.singleton_append] at hargs
  rw [tokenize, scan_plain_word hword, hargs]
  refine congrArg Except.ok ?_
  simp [Remaining.prepend, Remaining.toList, hne]

end Tokens

end CommandScript
