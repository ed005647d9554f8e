import CommandScript.Proofs.LineReading
import CommandScript.Script
import Mathlib.Logic.Function.Iterate
import Mathlib.Tactic.SplitIfs
/-!
# Lines frame their stream

Reading a stream to its end loses, repeats and invents nothing. The stream settles on the ending
whose signal stands first in it (`SettlesOn`); its lines, with that ending's terminator between them
and possibly behind the last, are the stream again, and hold no terminator themselves, but that in
front of the first CR CR a CR may stand alone (`IsFraming`). `lines_frame_body` says this of every
content, and of every number of reads: which line each read gives, and which ending the stream has
settled on behind it.
-/

set_option autoImplicit false
set_option relaxedAutoImplicit false

namespace CommandScript

namespace LineEnding

/-! ### The ending that a stream settles on -/

/-- Whether some ending's signal starts at a position. -/
def HasSignalAt (body : Bytes) (i : Nat) : Prop :=
  ∃ ending, ending ≠ unset ∧ ending.signal <+: body.drop i

/-- The ending is the one whose signal stands first, or unset where there is no signal at all. -/
structure SettlesOn (body : Bytes) (ending : LineEnding) : Prop where
  of_unset : ending = unset → ∀ i, ¬ HasSignalAt body i
  of_ne_unset : ending ≠ unset →
    ∃ i, ending.signal <+: body.drop i ∧ ∀ j, j < i → ¬ HasSignalAt body j

theorem signal_ne_nil {ending : LineEnding} (h : ending ≠ unset) : ending.signal ≠ [] := by
  cases ending with
  | unset => exact absurd rfl h
  | cr | lf | crLf => simp [signal]

theorem terminator_ne_nil {ending : LineEnding} (h : ending ≠ unset) : ending.terminator ≠ [] := by
  cases ending with
  | unset => exact absurd rfl h
  | cr | lf | crLf => simp [terminator]

theorem Unbroken.not_hasSignalAt {line rest : Bytes} (h : unset.Unbroken line rest) {i : Nat}
    (hi : i < line.length) : ¬ HasSignalAt (line ++ rest) i := by
  rintro ⟨ending, hending, hsignal⟩
  have hline := List.take_append_drop i line
  rw [List.drop_eq_getElem_cons hi] at hline
  rw [List.drop_append_of_le_length (Nat.le_of_lt hi), List.drop_eq_getElem_cons hi] at hsignal
  exact h.not_starts_signal hline.symm hending hsignal

theorem not_hasSignalAt_of_length_le {body : Bytes} {i : Nat} (hi : body.length ≤ i) :
    ¬ HasSignalAt body i := by
  rintro ⟨ending, hending, hsignal⟩
  rw [List.drop_of_length_le hi, List.prefix_nil] at hsignal
  exact signal_ne_nil hending hsignal

/-! ### What lines hold and how they join -/

/-- Every CR is followed by a byte of the line that is neither CR nor LF. -/
def HasLoneCarriageReturns (line : Bytes) : Prop :=
  ∀ before after, line = before ++ carriageReturn :: after →
    ∃ b rest, after = b :: rest ∧ b ≠ carriageReturn ∧ b ≠ lineFeed

/-- The body is made of the pieces, with the terminator between them and possibly behind the last. A
last piece without a terminator behind it is not empty. -/
def Joins (ending : LineEnding) (pieces : List Bytes) (body : Bytes) : Prop :=
  body = ending.terminator.intercalate pieces ∧ pieces.getLast? ≠ some [] ∨
    ending ≠ unset ∧ pieces ≠ [] ∧
      body = ending.terminator.intercalate pieces ++ ending.terminator

/-- The pieces are the lines of a body that settles on the ending. -/
structure IsFraming (ending : LineEnding) (pieces : List Bytes) (body : Bytes) : Prop where
  joins : Joins ending pieces body
  of_unset : ending = unset → pieces.length ≤ 1
  first : ∀ piece ∈ pieces.head?, ending ≠ unset →
    if ending = cr then HasLoneCarriageReturns piece else ¬ ending.terminator <:+: piece
  later : ∀ piece ∈ pieces.tail, ¬ ending.terminator <:+: piece

theorem joins_nil (ending : LineEnding) : Joins ending [] [] :=
  Or.inl ⟨rfl, by simp⟩

theorem joins_singleton (ending : LineEnding) {piece : Bytes} (h : piece ≠ []) :
    Joins ending [piece] piece :=
  Or.inl ⟨List.intercalate_singleton.symm, by simpa using h⟩

/-- A line with its terminator goes in front of what the later lines make. -/
theorem Joins.cons {ending : LineEnding} {pieces : List Bytes} {body : Bytes}
    (h : Joins ending pieces body) (hending : ending ≠ unset) (hbody : pieces = [] → body = [])
    (line : Bytes) : Joins ending (line :: pieces) (line ++ (ending.terminator ++ body)) := by
  by_cases hpieces : pieces = []
  · subst hpieces
    obtain rfl := hbody rfl
    exact Or.inr ⟨hending, List.cons_ne_nil _ _, by simp [List.intercalate_singleton]⟩
  · obtain ⟨next, others, rfl⟩ := List.exists_cons_of_ne_nil hpieces
    rcases h with ⟨rfl, hlast⟩ | ⟨-, -, rfl⟩
    · refine Or.inl ⟨?_, ?_⟩
      · rw [List.intercalate_cons_cons, List.append_assoc]
      · rwa [List.getLast?_cons_cons]
    · refine Or.inr ⟨hending, List.cons_ne_nil _ _, ?_⟩
      rw [List.intercalate_cons_cons]
      simp only [List.append_assoc]

/-- In front of the first signal, a line does not hold the terminator of the ending that follows,
unless that is CR. -/
theorem Unbroken.first_line {ending : LineEnding} {line rest : Bytes} (hending : ending ≠ unset)
    (h : unset.Unbroken line (ending.terminator ++ rest)) :
    if ending = cr then HasLoneCarriageReturns line else ¬ ending.terminator <:+: line := by
  split_ifs with hcr
  · subst hcr
    intro before after hline
    have hnot : ∀ other, other ≠ unset →
        ¬ other.signal <+: carriageReturn :: (after ++ (cr.terminator ++ rest)) :=
      fun other hother ↦ h.not_starts_signal hline hother
    cases after with
    | nil =>
      exact absurd (List.prefix_append [carriageReturn, carriageReturn] rest) (hnot cr hending)
    | cons b tail =>
      refine ⟨b, tail, rfl, ?_, ?_⟩
      · rintro rfl
        exact hnot cr hending (List.prefix_append [carriageReturn, carriageReturn] _)
      · rintro rfl
        exact hnot crLf (by decide) (List.prefix_append [carriageReturn, lineFeed] _)
  · rintro ⟨before, after, hline⟩
    have hsame : ending.signal = ending.terminator := by
      cases ending with
      | cr => exact absurd rfl hcr
      | unset | lf | crLf => rfl
    obtain ⟨b, tail, hterminator⟩ := List.exists_cons_of_ne_nil (terminator_ne_nil hending)
    have hsplit : line = before ++ b :: (tail ++ after) := by
      rw [← hline, hterminator]
      simp
    refine h.not_starts_signal hsplit hending ?_
    rw [hsame, hterminator, List.append_assoc]
    exact List.prefix_append (b :: tail) _

end LineEnding

namespace LineStream

open LineEnding

variable {stream : LineStream}

/-- A stream that has settled on an ending is framed by the lines that are left. -/
theorem joins_lines (h : stream.ending ≠ .unset) :
    Joins stream.ending (stream.lines.map Prod.fst) stream.rest ∧
      ∀ piece ∈ stream.lines.map Prod.fst, ¬ stream.ending.terminator <:+: piece := by
  induction stream using lines.induct with
  | case1 stream hnone =>
    rw [lines_of_next?_eq_none hnone, (next?_eq_none_iff stream).mp hnone]
    exact ⟨joins_nil _, by simp⟩
  | case2 stream line later hsome ih =>
    rw [lines_of_next?_eq_some hsome, List.map_cons]
    rcases next?_eq_some_cases hsome with
      ⟨hrest, hline, hunbroken, rfl⟩ | ⟨-, hsame, hrest, hunbroken, -⟩
    · rw [lines_nil, List.map_nil, hrest]
      refine ⟨joins_singleton _ hline, ?_⟩
      simpa using hunbroken.not_contains_terminator h
    · rw [hsame h] at ih hrest hunbroken
      obtain ⟨hjoins, hpieces⟩ := ih h
      have hbody : later.lines.map Prod.fst = [] → later.rest = [] := fun hnil ↦
        lines_eq_nil_iff.mp (List.map_eq_nil_iff.mp hnil)
      rw [hrest]
      refine ⟨hjoins.cons h hbody line, ?_⟩
      intro piece hpiece
      rcases List.mem_cons.mp hpiece with rfl | hpiece
      · exact hunbroken.not_contains_terminator h
      · exact hpieces piece hpiece

theorem settlesOn_finalEnding (h : stream.ending = .unset) :
    SettlesOn stream.rest stream.finalEnding := by
  cases hnext : stream.next? with
  | none =>
    rw [finalEnding_of_next?_eq_none hnext, (next?_eq_none_iff stream).mp hnext, h]
    exact ⟨fun _ i ↦ not_hasSignalAt_of_length_le (Nat.zero_le i), fun hne ↦ absurd rfl hne⟩
  | some read =>
    obtain ⟨line, later⟩ := read
    rw [finalEnding_of_next?_eq_some hnext]
    rcases next?_eq_some_cases hnext with
      ⟨hrest, -, hunbroken, rfl⟩ | ⟨hending, -, hrest, hunbroken, hsignal⟩
    · rw [h] at hunbroken ⊢
      rw [finalEnding_of_next?_eq_none rfl, hrest]
      refine ⟨fun _ i ↦ ?_, fun hne ↦ absurd rfl hne⟩
      by_cases hi : i < line.length
      · simpa using hunbroken.not_hasSignalAt hi
      · exact not_hasSignalAt_of_length_le (Nat.le_of_not_lt hi)
    · rw [h] at hunbroken
      rw [finalEnding_of_ending_ne_unset hending, hrest]
      refine ⟨fun hunset ↦ absurd hunset hending, fun _ ↦ ⟨line.length, ?_, fun j hj ↦ ?_⟩⟩
      · rw [List.drop_left]
        exact hsignal h
      · exact hunbroken.not_hasSignalAt hj

theorem isFraming_lines (h : stream.ending = .unset) :
    IsFraming stream.finalEnding (stream.lines.map Prod.fst) stream.rest := by
  cases hnext : stream.next? with
  | none =>
    rw [finalEnding_of_next?_eq_none hnext, lines_of_next?_eq_none hnext,
      (next?_eq_none_iff stream).mp hnext]
    exact ⟨joins_nil _, by simp, by simp, by simp⟩
  | some read =>
    obtain ⟨line, later⟩ := read
    rw [finalEnding_of_next?_eq_some hnext, lines_of_next?_eq_some hnext, List.map_cons]
    rcases next?_eq_some_cases hnext with
      ⟨hrest, hline, -, rfl⟩ | ⟨hending, -, hrest, hunbroken, -⟩
    · rw [lines_nil, finalEnding_of_next?_eq_none rfl, hrest, h]
      exact ⟨joins_singleton _ hline, by simp, fun _ _ hne ↦ absurd rfl hne, by simp⟩
    · rw [h] at hunbroken
      obtain ⟨hjoins, hpieces⟩ := joins_lines hending
      have hbody : later.lines.map Prod.fst = [] → later.rest = [] := fun hnil ↦
        lines_eq_nil_iff.mp (List.map_eq_nil_iff.mp hnil)
      rw [finalEnding_of_ending_ne_unset hending, hrest]
      refine ⟨hjoins.cons hending hbody line, fun hunset ↦ absurd hunset hending, ?_, hpieces⟩
      intro piece hpiece _
      obtain rfl : line = piece := by simpa using hpiece
      exact hunbroken.first_line hending

/-! ### Reads in a row -/

/-- One read, which at the end of the stream gives nothing and leaves the stream as it is. -/
def read (stream : LineStream) : Option Bytes × LineStream :=
  match stream.next? with
  | none => (none, stream)
  | some (line, later) => (some line, later)

/-- What is left of a stream behind so many reads. -/
def afterReads (stream : LineStream) (count : Nat) : LineStream :=
  (fun left ↦ left.read.2)^[count] stream

theorem afterReads_succ (stream : LineStream) (count : Nat) :
    stream.afterReads (count + 1) = (stream.afterReads count).read.2 :=
  Function.iterate_succ_apply' _ count stream

theorem read_of_next?_eq_none (h : stream.next? = none) : stream.read = (none, stream) := by
  rw [read, h]

theorem read_of_next?_eq_some {line : Bytes} {later : LineStream}
    (h : stream.next? = some (line, later)) : stream.read = (some line, later) := by
  rw [read, h]

theorem read_fst (stream : LineStream) : stream.read.1 = stream.lines.head?.map Prod.fst := by
  cases h : stream.next? with
  | none => rw [read_of_next?_eq_none h, lines_of_next?_eq_none h]; rfl
  | some next => rw [read_of_next?_eq_some h, lines_of_next?_eq_some h]; rfl

theorem lines_read (stream : LineStream) : stream.read.2.lines = stream.lines.tail := by
  cases h : stream.next? with
  | none => rw [read_of_next?_eq_none h, lines_of_next?_eq_none h]; rfl
  | some next => rw [read_of_next?_eq_some h, lines_of_next?_eq_some h]; rfl

theorem lines_afterReads (stream : LineStream) (count : Nat) :
    (stream.afterReads count).lines = stream.lines.drop count := by
  induction count with
  | zero => rfl
  | succ count ih => rw [afterReads_succ, lines_read, ih, List.tail_drop]

theorem finalEnding_afterReads (stream : LineStream) (count : Nat) :
    (stream.afterReads count).finalEnding = stream.finalEnding := by
  induction count with
  | zero => rfl
  | succ count ih =>
    rw [afterReads_succ, ← ih]
    cases h : (stream.afterReads count).next? with
    | none => rw [read_of_next?_eq_none h]
    | some next => rw [read_of_next?_eq_some h, finalEnding_of_next?_eq_some h]

/-- A read that leaves the stream without an ending leaves nothing of it. -/
theorem rest_read_of_unset (h : stream.read.2.ending = .unset) : stream.read.2.rest = [] := by
  cases hnext : stream.next? with
  | none =>
    rw [read_of_next?_eq_none hnext]
    exact (next?_eq_none_iff stream).mp hnext
  | some next =>
    rw [read_of_next?_eq_some hnext] at h ⊢
    rcases next?_eq_some_cases hnext with ⟨-, -, -, hlater⟩ | ⟨hending, -⟩
    · rw [hlater]
    · exact absurd h hending

theorem ending_afterReads {count later : Nat} (hle : count ≤ later)
    (h : (stream.afterReads count).ending ≠ .unset) :
    (stream.afterReads later).ending = (stream.afterReads count).ending := by
  obtain ⟨extra, rfl⟩ := Nat.exists_eq_add_of_le hle
  induction extra with
  | zero => rfl
  | succ extra ih =>
    have hsettled := ih (Nat.le_add_right count extra)
    rw [← Nat.add_assoc, afterReads_succ, ← hsettled]
    cases hnext : (stream.afterReads (count + extra)).next? with
    | none => rw [read_of_next?_eq_none hnext]
    | some next =>
      rw [read_of_next?_eq_some hnext]
      exact ending_of_next? hnext (hsettled ▸ h)

end LineStream

open LineEnding LineStream

/-- Reading any content to its end. Behind a byte-order mark that may open it, the stream settles on
the ending whose signal stands first, and the lines frame it. Each further read gives the next line
as long as there is one, and nothing from then on. A stream that has no ending behind a read has
nothing left to read, an ending once settled on stays, and the one settled on behind the last line
is the one that is reported. -/
theorem lines_frame_body (bytes : Bytes) :
    let body := skipByteOrderMark bytes
    let start := LineStream.ofBytes bytes
    (bytes = byteOrderMark ++ body ∨ ¬ byteOrderMark <+: bytes ∧ bytes = body) ∧
      SettlesOn body start.finalEnding ∧
      (∃ pieces, Script.lines bytes = pieces.map Utf8.decode ∧
        IsFraming start.finalEnding pieces body) ∧
      (∀ count, (start.afterReads count).read.1.map Utf8.decode = (Script.lines bytes)[count]?) ∧
      (∀ count, (start.afterReads (count + 1)).ending = .unset →
        (start.afterReads (count + 1)).read.1 = none) ∧
      (∀ count later, count ≤ later → (start.afterReads count).ending ≠ .unset →
        (start.afterReads later).ending = (start.afterReads count).ending) ∧
      (∀ count later, count ≤ later → (start.afterReads count).read.1 = none →
        (start.afterReads later).read.1 = none) ∧
      ∀ count, (Script.lines bytes).length ≤ count →
        (start.afterReads count).ending = start.finalEnding := by
  intro body start
  have hunset : start.ending = .unset := rfl
  refine ⟨?_, settlesOn_finalEnding hunset, ⟨start.lines.map Prod.fst, ?_, isFraming_lines hunset⟩,
    ?_, ?_, fun _ _ hle h ↦ ending_afterReads hle h, ?_, ?_⟩
  · by_cases hmark : byteOrderMark <+: bytes
    · obtain ⟨rest, rfl⟩ := hmark
      exact Or.inl rfl
    · refine Or.inr ⟨hmark, ?_⟩
      rw [← List.isPrefixOf_iff_prefix] at hmark
      exact (if_neg hmark).symm
  · rw [Script.lines, List.map_map]
    rfl
  · intro count
    rw [read_fst, lines_afterReads, List.head?_drop, Script.lines, List.getElem?_map,
      Option.map_map]
    rfl
  · intro count h
    rw [afterReads_succ] at h ⊢
    rw [read_fst, lines_eq_nil_iff.mpr (rest_read_of_unset h)]
    rfl
  · intro count later hle h
    rw [read_fst, lines_afterReads, Option.map_eq_none_iff, List.head?_eq_none_iff,
      List.drop_eq_nil_iff] at h ⊢
    exact Nat.le_trans h hle
  · intro count hcount
    rw [Script.lines, List.length_map] at hcount
    have hnone : (start.afterReads count).next? = none := by
      rw [next?_eq_none_iff, ← lines_eq_nil_iff, lines_afterReads]
      exact List.drop_eq_nil_iff.mpr hcount
    rw [← finalEnding_of_next?_eq_none hnone, finalEnding_afterReads]

/-- The lone CR stays in the first line. The pair behind it settles the stream on CR, and its second
half ends an empty line. -/
example :
    (LineStream.ofBytes [0x61, 0x0D, 0x62, 0x0D, 0x0D, 0x63, 0x0D, 0x64, 0x0A]).lines.map Prod.fst =
      [[0x61, 0x0D, 0x62], [], [0x63], [0x64, 0x0A]] := by
  cbv

end CommandScript
