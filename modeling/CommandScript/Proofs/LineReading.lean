import CommandScript.Script.Lines
/-!
# How lines are read

A line ends at the first byte where the stream's ending lets it end. `Unbroken` says that there is
none in a stretch of bytes, and cutting a stream then has two cases only: nothing ends a line, or
what stands in front of the first end is unbroken (`unbroken_or_breaks`). What one read leaves
follows from that (`next?_eq_some_cases`), and so do the lines of a whole stream.
-/

set_option autoImplicit false
set_option relaxedAutoImplicit false

namespace CommandScript

namespace LineEnding

/-- The bytes that end a line. -/
def terminator : LineEnding → Bytes
  | unset => []
  | cr => [carriageReturn]
  | lf => [lineFeed]
  | crLf => [carriageReturn, lineFeed]

/-- The bytes that make a stream settle on the ending. -/
def signal : LineEnding → Bytes
  | unset => []
  | cr => [carriageReturn, carriageReturn]
  | lf => [lineFeed]
  | crLf => [carriageReturn, lineFeed]

theorem lineFeed_ne_carriageReturn : lineFeed ≠ carriageReturn := by decide

/-- Before a stream has settled, a line ends where a signal stands. -/
theorem breakAt?_unset_eq_some_iff {locked : LineEnding} {b : UInt8} {rest after : Bytes} :
    unset.breakAt? b rest = some (locked, after) ↔
      locked ≠ unset ∧ locked.signal <+: b :: rest ∧ b :: rest = locked.terminator ++ after := by
  have hne := lineFeed_ne_carriageReturn
  cases rest <;> cases locked <;> grind [breakAt?, signal, terminator]

/-- Once a stream has settled, a line ends where the ending's terminator stands. -/
theorem breakAt?_eq_some_iff {ending locked : LineEnding} (hending : ending ≠ unset) {b : UInt8}
    {rest after : Bytes} :
    ending.breakAt? b rest = some (locked, after) ↔
      locked = ending ∧ b :: rest = ending.terminator ++ after := by
  cases rest <;> cases ending <;> grind [breakAt?, terminator]

/-- No line ends at a byte of `line` where `rest` stands behind it. -/
def Unbroken (ending : LineEnding) (line rest : Bytes) : Prop :=
  ∀ before b after, line = before ++ b :: after → ending.breakAt? b (after ++ rest) = none

theorem unbroken_nil (ending : LineEnding) (rest : Bytes) : ending.Unbroken [] rest := by
  intro before b after h
  simp at h

theorem unbroken_cons_iff {ending : LineEnding} {b : UInt8} {line rest : Bytes} :
    ending.Unbroken (b :: line) rest ↔
      ending.breakAt? b (line ++ rest) = none ∧ ending.Unbroken line rest := by
  constructor
  · intro h
    refine ⟨h [] b line rfl, fun before c after hline ↦ h (b :: before) c after ?_⟩
    rw [hline, List.cons_append]
  · rintro ⟨hfirst, hline⟩ before c after h
    cases before with
    | nil =>
      obtain ⟨rfl, rfl⟩ := List.cons.inj h
      exact hfirst
    | cons d before =>
      obtain ⟨-, htail⟩ := List.cons.inj h
      exact hline before c after htail

/-- A stretch of bytes is unbroken, or there is a first byte where a line ends. -/
theorem unbroken_or_breaks (ending : LineEnding) (bytes : Bytes) :
    ending.Unbroken bytes [] ∨
      ∃ line b rest locked after, bytes = line ++ b :: rest ∧ ending.Unbroken line (b :: rest) ∧
        ending.breakAt? b rest = some (locked, after) := by
  induction bytes with
  | nil => exact Or.inl (unbroken_nil ending [])
  | cons b bytes ih =>
    cases hbreak : ending.breakAt? b bytes with
    | some cut => exact Or.inr ⟨[], b, bytes, cut.1, cut.2, rfl, unbroken_nil _ _, hbreak⟩
    | none =>
      rcases ih with hwhole | ⟨line, c, rest, locked, after, rfl, hline, hcut⟩
      · exact Or.inl (unbroken_cons_iff.mpr ⟨by simpa using hbreak, hwhole⟩)
      · exact Or.inr ⟨b :: line, c, rest, locked, after, rfl,
          unbroken_cons_iff.mpr ⟨hbreak, hline⟩, hcut⟩

/-- An unbroken stretch does not hold the terminator of the ending that the stream has settled
on. -/
theorem Unbroken.not_contains_terminator {ending : LineEnding} {line rest : Bytes}
    (h : ending.Unbroken line rest) (hending : ending ≠ unset) : ¬ ending.terminator <:+: line := by
  rintro ⟨before, after, hline⟩
  obtain ⟨b, tail, hterminator⟩ : ∃ b tail, ending.terminator = b :: tail := by
    cases ending with
    | unset => exact absurd rfl hending
    | cr | lf | crLf => exact ⟨_, _, rfl⟩
  have hnone := h before b (tail ++ after) (by simp [← hline, hterminator])
  have hsome : ending.breakAt? b (tail ++ after ++ rest) = some (ending, after ++ rest) := by
    rw [breakAt?_eq_some_iff hending, hterminator]
    simp
  rw [hnone] at hsome
  cases hsome

/-- Before a stream has settled, no signal starts in an unbroken stretch. -/
theorem Unbroken.not_starts_signal {line rest : Bytes} (h : unset.Unbroken line rest)
    {before after : Bytes} {b : UInt8} (hline : line = before ++ b :: after) {other : LineEnding}
    (hother : other ≠ unset) : ¬ other.signal <+: b :: (after ++ rest) := by
  intro hsignal
  have hnone := h before b after hline
  obtain ⟨tail, htail⟩ : ∃ tail, b :: (after ++ rest) = other.terminator ++ tail := by
    obtain ⟨tail, htail⟩ := hsignal
    cases other with
    | unset => exact absurd rfl hother
    | cr => exact ⟨carriageReturn :: tail, htail.symm⟩
    | lf | crLf => exact ⟨tail, htail.symm⟩
  have hsome := breakAt?_unset_eq_some_iff.mpr ⟨hother, hsignal, htail⟩
  rw [hnone] at hsome
  cases hsome

end LineEnding

/-! ### One line -/

namespace LineCut

open LineEnding

theorem of_eq_of_unbroken {ending : LineEnding} {bytes : Bytes} (h : ending.Unbroken bytes []) :
    LineCut.of ending bytes = { line := bytes, ending, rest := [] } := by
  induction bytes with
  | nil => rfl
  | cons b bytes ih =>
    obtain ⟨hbreak, hbytes⟩ := unbroken_cons_iff.mp h
    rw [List.append_nil] at hbreak
    rw [LineCut.of, hbreak]
    simp only [ih hbytes]

theorem of_eq_of_breakAt? {ending locked : LineEnding} {line rest after : Bytes} {b : UInt8}
    (h : ending.Unbroken line (b :: rest))
    (hbreak : ending.breakAt? b rest = some (locked, after)) :
    LineCut.of ending (line ++ b :: rest) = { line, ending := locked, rest := after } := by
  induction line with
  | nil => rw [List.nil_append, LineCut.of, hbreak]
  | cons c line ih =>
    obtain ⟨hfirst, hline⟩ := unbroken_cons_iff.mp h
    rw [List.cons_append, LineCut.of, hfirst]
    simp only [ih hline]

end LineCut

/-! ### One read -/

namespace LineStream

open LineEnding

variable {ending locked : LineEnding} {line rest after : Bytes} {b : UInt8}

theorem next?_of_unbroken (hrest : rest ≠ []) (h : ending.Unbroken rest []) :
    LineStream.next? { ending, rest } = some (rest, { ending, rest := [] }) := by
  obtain ⟨b, tail, rfl⟩ := List.exists_cons_of_ne_nil hrest
  simp only [next?, LineCut.of_eq_of_unbroken h]

theorem next?_of_breakAt? (h : ending.Unbroken line (b :: rest))
    (hbreak : ending.breakAt? b rest = some (locked, after)) :
    LineStream.next? { ending, rest := line ++ b :: rest } =
      some (line, { ending := locked, rest := after }) := by
  have hcut := LineCut.of_eq_of_breakAt? h hbreak
  cases line with
  | nil => simp only [next?, List.nil_append] at hcut ⊢; rw [hcut]
  | cons c line => simp only [next?, List.cons_append] at hcut ⊢; rw [hcut]

/-- What one read gives and leaves: all that is left and no line's end in it, or an unbroken line
behind which the terminator of the ending stands that the stream has settled on by then. -/
theorem next?_eq_some_cases {stream later : LineStream} (h : stream.next? = some (line, later)) :
    (stream.rest = line ∧ line ≠ [] ∧ stream.ending.Unbroken line [] ∧
        later = { ending := stream.ending, rest := [] }) ∨
      later.ending ≠ .unset ∧ (stream.ending ≠ .unset → later.ending = stream.ending) ∧
        stream.rest = line ++ (later.ending.terminator ++ later.rest) ∧
        stream.ending.Unbroken line (later.ending.terminator ++ later.rest) ∧
        (stream.ending = .unset →
          later.ending.signal <+: later.ending.terminator ++ later.rest) := by
  obtain ⟨ending, rest⟩ := stream
  have hrest : rest ≠ [] := by
    rintro rfl
    cases h
  rcases unbroken_or_breaks ending rest with
    hwhole | ⟨found, b, tail, locked, after, rfl, hfound, hbreak⟩
  · rw [next?_of_unbroken hrest hwhole] at h
    obtain ⟨rfl, rfl⟩ := Prod.mk.inj (Option.some.inj h)
    exact Or.inl ⟨rfl, hrest, hwhole, rfl⟩
  · rw [next?_of_breakAt? hfound hbreak] at h
    obtain ⟨rfl, rfl⟩ := Prod.mk.inj (Option.some.inj h)
    refine Or.inr ?_
    by_cases hending : ending = .unset
    · subst hending
      obtain ⟨hlocked, hsignal, hcut⟩ := breakAt?_unset_eq_some_iff.mp hbreak
      rw [hcut] at hfound hsignal ⊢
      exact ⟨hlocked, fun hne ↦ absurd rfl hne, rfl, hfound, fun _ ↦ hsignal⟩
    · obtain ⟨rfl, hcut⟩ := (breakAt?_eq_some_iff hending).mp hbreak
      rw [hcut] at hfound ⊢
      exact ⟨hending, fun _ ↦ rfl, rfl, hfound, fun hunset ↦ absurd hunset hending⟩

/-! ### All lines -/

theorem lines_of_next?_eq_none {stream : LineStream} (h : stream.next? = none) :
    stream.lines = [] := by
  rw [lines]
  split
  · rfl
  · next hsome =>
    rw [h] at hsome
    cases hsome

theorem lines_of_next?_eq_some {stream later : LineStream}
    (h : stream.next? = some (line, later)) :
    stream.lines = (line, later.ending) :: later.lines := by
  rw [lines]
  split
  · next hnone =>
    rw [h] at hnone
    cases hnone
  · next hsome =>
    rw [h] at hsome
    obtain ⟨rfl, rfl⟩ := Prod.mk.inj (Option.some.inj hsome)
    rfl

theorem lines_nil (ending : LineEnding) : LineStream.lines { ending, rest := [] } = [] :=
  lines_of_next?_eq_none rfl

theorem lines_eq_nil_iff {stream : LineStream} : stream.lines = [] ↔ stream.rest = [] := by
  rw [← next?_eq_none_iff]
  refine ⟨fun h ↦ ?_, lines_of_next?_eq_none⟩
  cases hnext : stream.next? with
  | none => rfl
  | some read =>
    rw [lines_of_next?_eq_some hnext] at h
    cases h

theorem finalEnding_of_next?_eq_none {stream : LineStream} (h : stream.next? = none) :
    stream.finalEnding = stream.ending := by
  simp [finalEnding, lines_of_next?_eq_none h]

theorem finalEnding_of_next?_eq_some {stream later : LineStream}
    (h : stream.next? = some (line, later)) : stream.finalEnding = later.finalEnding := by
  rw [finalEnding, finalEnding, lines_of_next?_eq_some h]
  cases hlines : later.lines with
  | nil => rfl
  | cons first others => simp [List.getLast?_cons]

/-- An ending that a stream has settled on stays. -/
theorem ending_of_next? {stream later : LineStream} (h : stream.next? = some (line, later))
    (hending : stream.ending ≠ .unset) : later.ending = stream.ending := by
  rcases next?_eq_some_cases h with ⟨-, -, -, rfl⟩ | ⟨-, hsame, -⟩
  · rfl
  · exact hsame hending

theorem finalEnding_of_ending_ne_unset {stream : LineStream} (h : stream.ending ≠ .unset) :
    stream.finalEnding = stream.ending := by
  induction stream using lines.induct with
  | case1 stream hnone => exact finalEnding_of_next?_eq_none hnone
  | case2 stream line later hsome ih =>
    have hending := ending_of_next? hsome h
    rw [finalEnding_of_next?_eq_some hsome, ih (hending ▸ h), hending]

end LineStream

end CommandScript
