import CommandScript.Text.Utf8
/-!
# Logical lines

A stream settles on one line ending, by the first that it meets: LF, CR LF, or CR where another CR
follows it. From then on only that ending ends a line, and any other CR or LF is content. So is a
lone CR met before the ending is settled. A byte-order mark at the very start is skipped. A line at
the end of the stream need not be ended, and an ending there opens no further line.
-/

set_option autoImplicit false
set_option relaxedAutoImplicit false

namespace CommandScript

/-- The ending that a stream has settled on, if any. -/
inductive LineEnding
  | unset
  | cr
  | lf
  | crLf
  deriving DecidableEq, Repr

def carriageReturn : UInt8 := 0x0D

def lineFeed : UInt8 := 0x0A

namespace LineEnding

/-- Whether a line ends at the byte `b` with `rest` behind it: the ending settled on by then, and
what follows the line. -/
def breakAt? (ending : LineEnding) (b : UInt8) (rest : Bytes) : Option (LineEnding × Bytes) :=
  match ending with
  | .unset =>
    if b = lineFeed then some (.lf, rest)
    else if b = carriageReturn then
      match rest with
      | next :: after =>
        if next = lineFeed then some (.crLf, after)
        else if next = carriageReturn then some (.cr, rest)
        else none
      | [] => none
    else none
  | .cr => if b = carriageReturn then some (.cr, rest) else none
  | .lf => if b = lineFeed then some (.lf, rest) else none
  | .crLf =>
    match rest with
    | next :: after =>
      if b = carriageReturn ∧ next = lineFeed then some (.crLf, after) else none
    | [] => none

theorem length_le_of_breakAt? {ending locked : LineEnding} {b : UInt8} {rest after : Bytes}
    (h : ending.breakAt? b rest = some (locked, after)) : after.length ≤ rest.length := by
  cases ending <;> cases rest <;> grind [breakAt?]

end LineEnding

/-- A stream's first line without its ending, the ending settled on by then, and what follows. -/
structure LineCut where
  line : Bytes
  ending : LineEnding
  rest : Bytes
  deriving DecidableEq, Repr

/-- Cuts a stream behind its first line. -/
def LineCut.of (ending : LineEnding) : Bytes → LineCut
  | [] => { line := [], ending, rest := [] }
  | b :: rest =>
    match ending.breakAt? b rest with
    | some (locked, after) => { line := [], ending := locked, rest := after }
    | none =>
      let cut := of ending rest
      { cut with line := b :: cut.line }

theorem LineCut.length_rest_of_lt (ending : LineEnding) (b : UInt8) (rest : Bytes) :
    (LineCut.of ending (b :: rest)).rest.length < (b :: rest).length := by
  have hle : ∀ bytes : Bytes, (LineCut.of ending bytes).rest.length ≤ bytes.length := by
    intro bytes
    induction bytes with
    | nil => simp [LineCut.of]
    | cons c tail ih =>
      rw [LineCut.of]
      split
      · next hbreak =>
        have hshort := LineEnding.length_le_of_breakAt? hbreak
        simp only [List.length_cons]
        omega
      · simp only [List.length_cons]
        omega
  rw [LineCut.of]
  split
  · next hbreak =>
    have hshort := LineEnding.length_le_of_breakAt? hbreak
    simp only [List.length_cons]
    omega
  · have hshort := hle rest
    simp only [List.length_cons]
    omega

/-- What is left of a stream, and the ending that it has settled on. -/
structure LineStream where
  ending : LineEnding
  rest : Bytes
  deriving DecidableEq, Repr

namespace LineStream

/-- The mark that may open a stream and is not content. -/
def byteOrderMark : Bytes := [0xEF, 0xBB, 0xBF]

def skipByteOrderMark (bytes : Bytes) : Bytes :=
  if byteOrderMark.isPrefixOf bytes then bytes.drop byteOrderMark.length else bytes

/-- The stream of some bytes before its first line is read. -/
def ofBytes (bytes : Bytes) : LineStream :=
  { ending := .unset, rest := skipByteOrderMark bytes }

/-- Reads a line, unless nothing is left. -/
def next? (stream : LineStream) : Option (Bytes × LineStream) :=
  match stream.rest with
  | [] => none
  | b :: rest =>
    let cut := LineCut.of stream.ending (b :: rest)
    some (cut.line, { ending := cut.ending, rest := cut.rest })

theorem next?_eq_none_iff (stream : LineStream) : stream.next? = none ↔ stream.rest = [] := by
  obtain ⟨ending, rest⟩ := stream
  cases rest <;> simp [next?]

theorem length_rest_of_next? {stream after : LineStream} {line : Bytes}
    (h : stream.next? = some (line, after)) : after.rest.length < stream.rest.length := by
  obtain ⟨ending, rest⟩ := stream
  cases rest with
  | nil => simp [next?] at h
  | cons b rest =>
    simp only [next?, Option.some.injEq, Prod.mk.injEq] at h
    obtain ⟨_, rfl⟩ := h
    exact LineCut.length_rest_of_lt ending b rest

/-- All lines that are left, each with the ending settled on once it is read. -/
def lines (stream : LineStream) : List (Bytes × LineEnding) :=
  match _h : stream.next? with
  | none => []
  | some (line, after) => (line, after.ending) :: after.lines
termination_by stream.rest.length
decreasing_by exact length_rest_of_next? _h

/-- The ending settled on when nothing is left. -/
def finalEnding (stream : LineStream) : LineEnding :=
  (stream.lines.getLast?.map Prod.snd).getD stream.ending

end LineStream

end CommandScript
