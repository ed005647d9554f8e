import CommandScript.Proofs.DecodingCuts
import CommandScript.Proofs.ScriptPieces
/-!
# Streams that are not UTF-8

Decoding replaces what is not UTF-8, and encoding again makes UTF-8 of it (`Utf8.mend`). Line by
line or all at once makes no difference: mending touches neither CR nor LF, nor whether anything
stands between an ASCII byte and the next, and it commutes with each step of reading. The line
ending settled on and the cut behind a line are the same (`LineCut.of_mend`), a byte-order mark is
neither made nor lost (`LineStream.skipByteOrderMark_mend`), and so the lines are the same with the
same endings, and a script means the same (`lines_mend_and_parseAs_mend`).
-/

set_option autoImplicit false
set_option relaxedAutoImplicit false

namespace CommandScript

namespace Utf8

/-- Bytes with what is not UTF-8 replaced. -/
def mend (bytes : Bytes) : Bytes := encode (decode bytes)

theorem mend_eq_flatMap (bytes : Bytes) :
    mend bytes = (decodeFrom none bytes).flatMap String.utf8EncodeChar :=
  encode_ofList _

@[simp]
theorem mend_nil : mend [] = [] :=
  rfl

@[simp]
theorem decode_mend (bytes : Bytes) : decode (mend bytes) = decode bytes :=
  decode_encode _

/-- Bytes may be mended apart in front of an ASCII byte and behind it. -/
theorem mend_append_cons (front : Bytes) {b : UInt8} (hb : b < 0x80) (rest : Bytes) :
    mend (front ++ b :: rest) = mend front ++ b :: mend rest := by
  rw [mend_eq_flatMap, mend_eq_flatMap, mend_eq_flatMap,
    decodeFrom_append_cons isSoundState_none front hb, List.flatMap_append, List.flatMap_cons,
    utf8EncodeChar_ofNat hb, List.singleton_append]

theorem mend_cons {b : UInt8} (hb : b < 0x80) (rest : Bytes) : mend (b :: rest) = b :: mend rest :=
  mend_append_cons [] hb rest

theorem le_of_mem_utf8EncodeChar {c : Char} (hc : 0x80 ≤ c.toNat) {b : UInt8}
    (hb : b ∈ String.utf8EncodeChar c) : 0x80 ≤ b := by
  by_contra hlt
  rw [UInt8.not_le] at hlt
  have hnat : b.toNat < 0x80 := UInt8.lt_iff_toNat_lt.mp hlt
  have heq := toNat_of_mem_utf8EncodeChar hb hnat
  omega

theorem IsForeign.mend {bytes : Bytes} (h : IsForeign bytes) : IsForeign (mend bytes) := by
  intro b hb
  rw [mend_eq_flatMap] at hb
  obtain ⟨c, hc, hb⟩ := List.mem_flatMap.mp hb
  exact le_of_mem_utf8EncodeChar (le_toNat_of_mem_decodeFrom isSoundState_none h hc) hb

/-- What does not start with an ASCII byte does not when it is mended, nor does it go away. -/
theorem exists_mend_eq_cons {b : UInt8} (hb : 0x80 ≤ b) (bytes : Bytes) :
    ∃ a rest, mend (b :: bytes) = a :: rest ∧ 0x80 ≤ a := by
  obtain ⟨c, chars, hdecode, hc⟩ := decodeFrom_eq_cons_of_le hb bytes
  rw [mend_eq_flatMap, hdecode, List.flatMap_cons]
  obtain ⟨a, rest, hchar⟩ := List.exists_cons_of_ne_nil (String.utf8EncodeChar_ne_nil (c := c))
  refine ⟨a, rest ++ chars.flatMap String.utf8EncodeChar, by rw [hchar, List.cons_append], ?_⟩
  exact le_of_mem_utf8EncodeChar hc (by rw [hchar]; exact List.mem_cons_self)

theorem mend_eq_nil_iff {bytes : Bytes} : mend bytes = [] ↔ bytes = [] := by
  refine ⟨fun h ↦ ?_, fun h ↦ by rw [h, mend_nil]⟩
  cases bytes with
  | nil => rfl
  | cons b rest =>
    by_cases hb : b < 0x80
    · rw [mend_cons hb] at h
      cases h
    · obtain ⟨a, others, hmend, -⟩ := exists_mend_eq_cons (UInt8.not_lt.mp hb) rest
      rw [hmend] at h
      cases h

/-- Bytes are a stretch without ASCII bytes, or such a stretch, an ASCII byte and more bytes. -/
theorem stretchInduction {motive : Bytes → Prop} (last : ∀ front, IsForeign front → motive front)
    (more : ∀ front b rest, IsForeign front → b < 0x80 → motive rest →
      motive (front ++ b :: rest)) (bytes : Bytes) : motive bytes := by
  have hfront : ∀ front, IsForeign front → motive (front ++ bytes) := by
    induction bytes with
    | nil =>
      intro front hfront
      rw [List.append_nil]
      exact last front hfront
    | cons b bytes ih =>
      intro front hfront
      by_cases hb : b < 0x80
      · exact more front b bytes hfront hb (ih [] fun _ h ↦ nomatch h)
      · have hlonger : IsForeign (front ++ [b]) := by
          intro a ha
          rcases List.mem_append.mp ha with ha | ha
          · exact hfront a ha
          · rw [List.mem_singleton.mp ha]
            exact UInt8.not_lt.mp hb
        have hmotive := ih (front ++ [b]) hlonger
        rwa [List.append_assoc] at hmotive
  exact hfront [] fun _ h ↦ nomatch h

end Utf8

open Utf8

/-! ### Reading mended bytes -/

theorem ne_carriageReturn_of_le {b : UInt8} (hb : 0x80 ≤ b) : b ≠ carriageReturn := by
  rintro rfl
  exact absurd hb (by decide)

theorem ne_lineFeed_of_le {b : UInt8} (hb : 0x80 ≤ b) : b ≠ lineFeed := by
  rintro rfl
  exact absurd hb (by decide)

/-- Whether a line ends at a byte does not depend on what is not UTF-8 behind it. -/
theorem LineEnding.breakAt?_mend (ending : LineEnding) (b : UInt8) (rest : Bytes) :
    ending.breakAt? b (mend rest) = (ending.breakAt? b rest).map fun cut ↦ (cut.1, mend cut.2) := by
  cases rest with
  | nil => cases ending <;> grind [breakAt?, mend_nil]
  | cons next after =>
    by_cases hnext : next < 0x80
    · rw [mend_cons hnext]
      cases ending <;> grind [breakAt?, mend_cons]
    · have hle := UInt8.not_lt.mp hnext
      obtain ⟨a, others, hmend, ha⟩ := exists_mend_eq_cons hle after
      have hcr := ne_carriageReturn_of_le ha
      have hlf := ne_lineFeed_of_le ha
      have hnextcr := ne_carriageReturn_of_le hle
      have hnextlf := ne_lineFeed_of_le hle
      rw [hmend]
      cases ending <;> grind [breakAt?]

/-- Bytes that are not ASCII go to the line in front of which they stand. -/
theorem LineCut.of_append {front : Bytes} (h : IsForeign front) (ending : LineEnding)
    (rest : Bytes) :
    LineCut.of ending (front ++ rest) =
      { LineCut.of ending rest with line := front ++ (LineCut.of ending rest).line } := by
  induction front with
  | nil => rfl
  | cons b front ih =>
    have hb := h b List.mem_cons_self
    rw [List.cons_append, LineCut.of,
      LineEnding.breakAt?_of_ne (ne_carriageReturn_of_le hb) (ne_lineFeed_of_le hb)]
    simp only [ih fun a ha ↦ h a (List.mem_cons_of_mem _ ha), List.cons_append]

/-- The first line of mended bytes is the first line, mended, and so is what follows it. -/
theorem LineCut.of_mend (ending : LineEnding) (bytes : Bytes) :
    LineCut.of ending (mend bytes) =
      { line := mend (LineCut.of ending bytes).line
        ending := (LineCut.of ending bytes).ending
        rest := mend (LineCut.of ending bytes).rest } := by
  induction bytes using stretchInduction with
  | last front hfront =>
    have hcut := LineCut.of_append hfront ending []
    have hmended := LineCut.of_append hfront.mend ending []
    rw [List.append_nil] at hcut hmended
    rw [hcut, hmended]
    simp [LineCut.of]
  | more front b rest hfront hb ih =>
    rw [mend_append_cons front hb, LineCut.of_append hfront, LineCut.of_append hfront.mend,
      LineCut.of, LineCut.of, LineEnding.breakAt?_mend]
    cases hbreak : ending.breakAt? b rest with
    | some cut => simp
    | none => simp [ih, mend_append_cons front hb]

namespace LineStream

/-- The stream with what is left of it mended. -/
def mend (stream : LineStream) : LineStream := { stream with rest := Utf8.mend stream.rest }

theorem next?_mend (stream : LineStream) :
    stream.mend.next? = stream.next?.map fun read ↦ (Utf8.mend read.1, read.2.mend) := by
  obtain ⟨ending, rest⟩ := stream
  cases rest with
  | nil => rfl
  | cons b rest =>
    obtain ⟨a, others, hmend⟩ :=
      List.exists_cons_of_ne_nil (mt mend_eq_nil_iff.mp (List.cons_ne_nil b rest))
    have hcut := LineCut.of_mend ending (b :: rest)
    rw [hmend] at hcut
    simp only [mend, hmend, next?, hcut, Option.map_some]

theorem lines_mend (stream : LineStream) :
    stream.mend.lines = stream.lines.map fun line ↦ (Utf8.mend line.1, line.2) := by
  induction stream using lines.induct with
  | case1 stream hnone =>
    have hmended : stream.mend.next? = none := by rw [next?_mend, hnone, Option.map_none]
    rw [lines_of_next?_eq_none hnone, lines_of_next?_eq_none hmended, List.map_nil]
  | case2 stream line later hsome ih =>
    have hmended : stream.mend.next? = some (Utf8.mend line, later.mend) := by
      rw [next?_mend, hsome, Option.map_some]
    rw [lines_of_next?_eq_some hsome, lines_of_next?_eq_some hmended, ih, List.map_cons]
    rfl

/-- Mending neither makes nor loses a byte-order mark. -/
theorem skipByteOrderMark_mend (bytes : Bytes) :
    skipByteOrderMark (Utf8.mend bytes) = Utf8.mend (skipByteOrderMark bytes) := by
  by_cases h : byteOrderMark <+: bytes
  · obtain ⟨rest, rfl⟩ := h
    have hmend : Utf8.mend (byteOrderMark ++ rest) = byteOrderMark ++ Utf8.mend rest := by
      rw [mend_eq_flatMap, byteOrderMark_eq, decodeFrom_utf8EncodeChar, List.flatMap_cons,
        mend_eq_flatMap]
    rw [hmend, skipByteOrderMark_of_marked, skipByteOrderMark_of_marked]
  · have hmended : ¬ byteOrderMark <+: Utf8.mend bytes := by
      rintro ⟨rest, hrest⟩
      have hdecode := congrArg (decodeFrom none) hrest
      rw [byteOrderMark_eq, decodeFrom_utf8EncodeChar, mend_eq_flatMap] at hdecode
      have hchars := decodeFrom_flatMap (decodeFrom none bytes) []
      rw [List.append_nil] at hchars
      rw [hchars, decodeFrom, List.append_nil] at hdecode
      obtain ⟨tail, htail⟩ := eq_append_of_decodeFrom_eq_cons (by decide) hdecode.symm
      exact h ⟨tail, by rw [byteOrderMark_eq, htail]⟩
    rw [skipByteOrderMark_of_unmarked hmended, skipByteOrderMark_of_unmarked h]

/-- A mark that an LF breaks off is replaced by one character, and is not skipped. -/
example : skipByteOrderMark (Utf8.mend [0xEF, 0xBB, lineFeed]) = Utf8.encode "\uFFFD\n" := by
  decide

theorem ofBytes_mend (bytes : Bytes) : ofBytes (Utf8.mend bytes) = (ofBytes bytes).mend := by
  rw [ofBytes, skipByteOrderMark_mend]
  rfl

end LineStream

/-- Any bytes read line by line, each line decoded by itself, give the same lines with the same
endings behind them as the encoding of all the bytes decoded at once. So a script that is not UTF-8
means what its decoded text means. -/
theorem lines_mend_and_parseAs_mend (bytes : Bytes) :
    let mended := Utf8.encode (Utf8.decode bytes)
    ((LineStream.ofBytes mended).lines.map fun line ↦ (Utf8.decode line.1, line.2)) =
        ((LineStream.ofBytes bytes).lines.map fun line ↦ (Utf8.decode line.1, line.2)) ∧
      ∀ (policy : NamePolicy) (source : String),
        Script.parseAs policy source mended = Script.parseAs policy source bytes := by
  intro mended
  have hlines : (LineStream.ofBytes mended).lines =
      (LineStream.ofBytes bytes).lines.map fun line ↦ (mend line.1, line.2) := by
    change (LineStream.ofBytes (mend bytes)).lines = _
    rw [LineStream.ofBytes_mend, LineStream.lines_mend]
  have hscript : Script.lines mended = Script.lines bytes := by
    rw [Script.lines, Script.lines, hlines, List.map_map]
    exact List.map_congr_left fun line _ ↦ decode_mend line.1
  refine ⟨?_, fun policy source ↦ ?_⟩
  · rw [hlines, List.map_map]
    exact List.map_congr_left fun line _ ↦ Prod.ext (decode_mend line.1) rfl
  · rw [Script.parseAs, Script.parseAs, Script.parse, Script.parse, hscript]

end CommandScript
