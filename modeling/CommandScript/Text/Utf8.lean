/-!
# UTF-8 with replacement

Bytes become characters one at a time. A character under way knows how many bytes it still owes and
the bounds on its next byte, which is what keeps overlong forms, surrogates and values past the last
code point out. Bytes that cannot go on are replaced by one `replacement` for each longest stretch
that could have begun a character (`decode`), so decoding never fails. Bytes are strictly UTF-8 when
encoding what was decoded gives them back (`decodeStrict?`).
-/

set_option autoImplicit false
set_option relaxedAutoImplicit false

namespace CommandScript

/-- The raw content of a file, an argument or a stream. -/
abbrev Bytes := List UInt8

namespace Utf8

/-- What stands for bytes that are not UTF-8. -/
def replacement : Char := '\uFFFD'

/-- A character under way: the value of the bytes read, the bounds on the next byte, and how many
bytes follow that one. -/
structure Pending where
  value : Nat
  low : UInt8
  high : UInt8
  later : Nat
  deriving DecidableEq, Repr

/-- The character that a lead byte opens, with the bounds on its second byte. -/
def Pending.ofLead? (b : UInt8) : Option Pending :=
  if 0xC2 ≤ b ∧ b ≤ 0xDF then some ⟨b.toNat - 0xC0, 0x80, 0xBF, 0⟩
  else if b = 0xE0 then some ⟨0, 0xA0, 0xBF, 1⟩
  else if b = 0xED then some ⟨0xD, 0x80, 0x9F, 1⟩
  else if 0xE1 ≤ b ∧ b ≤ 0xEF then some ⟨b.toNat - 0xE0, 0x80, 0xBF, 1⟩
  else if b = 0xF0 then some ⟨0, 0x90, 0xBF, 2⟩
  else if 0xF1 ≤ b ∧ b ≤ 0xF3 then some ⟨b.toNat - 0xF0, 0x80, 0xBF, 2⟩
  else if b = 0xF4 then some ⟨4, 0x80, 0x8F, 2⟩
  else none

/-- Reads a byte between characters. -/
def opening (b : UInt8) : List Char × Option Pending :=
  if b < 0x80 then ([Char.ofNat b.toNat], none)
  else match Pending.ofLead? b with
    | some p => ([], some p)
    | none => ([replacement], none)

/-- Reads a byte within a character: it ends the character, carries it on, or breaks it off and is
read as if it stood between characters. -/
def Pending.step (p : Pending) (b : UInt8) : List Char × Option Pending :=
  if p.low ≤ b ∧ b ≤ p.high then
    let value := p.value * 64 + (b.toNat - 0x80)
    match p.later with
    | 0 => ([Char.ofNat value], none)
    | later + 1 => ([], some ⟨value, 0x80, 0xBF, later⟩)
  else (replacement :: (opening b).1, (opening b).2)

/-- Reads one byte. -/
def step : Option Pending → UInt8 → List Char × Option Pending
  | none => opening
  | some p => p.step

/-- Decodes the bytes that follow what is under way. -/
def decodeFrom : Option Pending → Bytes → List Char
  | none, [] => []
  | some _, [] => [replacement]
  | state, b :: rest => (step state b).1 ++ decodeFrom (step state b).2 rest

/-- Decodes bytes, with one `replacement` for each longest stretch that begins no character. -/
def decode (bytes : Bytes) : String := String.ofList (decodeFrom none bytes)

/-- The bytes of a text. -/
def encode (text : String) : Bytes := text.toList.flatMap String.utf8EncodeChar

@[simp]
theorem encode_append (first second : String) :
    encode (first ++ second) = encode first ++ encode second := by
  simp [encode]

/-- Decodes bytes that are UTF-8 throughout. -/
def decodeStrict? (bytes : Bytes) : Option String :=
  if encode (decode bytes) = bytes then some (decode bytes) else none

end Utf8

end CommandScript
