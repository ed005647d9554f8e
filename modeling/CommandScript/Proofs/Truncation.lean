import CommandScript.Audit
import CommandScript.Proofs.Utf8RoundTrip
import Mathlib.Data.String.Basic
/-!
# Texts cut short

A text is cut on its bytes: the ellipsis takes its share of the room, a search goes back from the
end of what is left to the next boundary between characters, and the text up to there is kept. Each
of these steps can fail (`Audit.cut?`), but none does. The search starts within the text, so it
starts at a boundary or within a character, and a character has a first byte where the search stops
after three steps at most (`Utf8.lastBoundary?_flatMap`). That is the end of the longest beginning
that fits (`Audit.prefix_fitting`), so cutting on bytes is the same as taking characters while they
fit (`Audit.cut?_eq_some`).
-/

set_option autoImplicit false
set_option relaxedAutoImplicit false

namespace CommandScript

namespace Utf8

/-! ### Boundaries between characters -/

/-- A byte that goes on with a character. -/
def isContinuation (b : UInt8) : Bool := 0x80 ≤ b && b ≤ 0xBF

/-- Whether bytes can be cut at a position: at either end, or in front of a byte that begins a
character. -/
def isBoundary (bytes : Bytes) (position : Nat) : Bool :=
  position == 0 || match bytes[position]? with
    | some b => !isContinuation b
    | none => position == bytes.length

/-- The boundary that a search from a position backwards comes to first. There is none if the search
would have to go on in front of the bytes. -/
def lastBoundary? (bytes : Bytes) : Nat → Option Nat
  | 0 => if isBoundary bytes 0 then some 0 else none
  | position + 1 =>
    if isBoundary bytes (position + 1) then some (position + 1) else lastBoundary? bytes position

/-- The text in front of a position, if the text can be cut there. -/
def slice? (text : String) (position : Nat) : Option String :=
  if isBoundary (encode text) position then decodeStrict? ((encode text).take position) else none

section Boundaries

variable {before later after : Bytes} {lead : UInt8}

theorem isBoundary_append (hlead : ∀ b ∈ after.head?, isContinuation b = false) :
    isBoundary (before ++ after) before.length = true := by
  rw [isBoundary, List.getElem?_append_right (Nat.le_refl _), Nat.sub_self,
    ← List.head?_eq_getElem?]
  cases after with
  | nil => simp
  | cons b after => simp [hlead b rfl]

theorem isBoundary_within (hlater : ∀ b ∈ later, isContinuation b = true) {offset : Nat}
    (hoffset : offset < later.length) :
    isBoundary (before ++ (lead :: later ++ after)) (before.length + (offset + 1)) = false := by
  have hbyte : (before ++ (lead :: later ++ after))[before.length + (offset + 1)]? =
      some later[offset] := by
    rw [List.getElem?_append_right (Nat.le_add_right _ _), Nat.add_sub_cancel_left,
      List.cons_append, List.getElem?_cons_succ, List.getElem?_append_left hoffset,
      List.getElem?_eq_getElem hoffset]
  rw [isBoundary, hbyte]
  simp [hlater _ (List.getElem_mem hoffset)]

theorem lastBoundary?_of_isBoundary {bytes : Bytes} {position : Nat}
    (h : isBoundary bytes position = true) : lastBoundary? bytes position = some position := by
  cases position with
  | zero => rw [lastBoundary?, if_pos h]
  | succ position => rw [lastBoundary?, if_pos h]

/-- From within a character the search goes back to where the character begins. -/
theorem lastBoundary?_within (hlead : isContinuation lead = false)
    (hlater : ∀ b ∈ later, isContinuation b = true) {offset : Nat}
    (hoffset : offset ≤ later.length) :
    lastBoundary? (before ++ (lead :: later ++ after)) (before.length + offset) =
      some before.length := by
  induction offset with
  | zero =>
    have hboundary : isBoundary (before ++ (lead :: later ++ after)) before.length = true :=
      isBoundary_append (by simpa using hlead)
    exact lastBoundary?_of_isBoundary hboundary
  | succ offset ih =>
    have hwithin := @isBoundary_within before later after lead hlater offset hoffset
    rw [← Nat.add_assoc] at hwithin ⊢
    rw [lastBoundary?, hwithin, if_neg Bool.false_ne_true]
    exact ih (Nat.le_of_succ_le hoffset)

end Boundaries

/-! ### Bytes of characters -/

theorem isContinuation_ofNat {n : Nat} (h : n < 256) :
    isContinuation (UInt8.ofNat n) = true ↔ 0x80 ≤ n ∧ n ≤ 0xBF := by
  rw [isContinuation, Bool.and_eq_true, decide_eq_true_eq, decide_eq_true_eq, UInt8.le_iff_toNat_le,
    UInt8.le_iff_toNat_le, toNat_ofNat h]
  rfl

theorem isContinuation_lead {n : Nat} (h : n < 0x80 ∨ 0xC0 ≤ n ∧ n < 256) :
    isContinuation (UInt8.ofNat n) = false := by
  rw [← Bool.not_eq_true, isContinuation_ofNat (by omega)]
  omega

theorem isContinuation_bits (n : Nat) : isContinuation (UInt8.ofNat (n % 0x40 + 0x80)) = true := by
  rw [isContinuation_ofNat (by omega)]
  omega

/-- The first byte of a character begins it, and the others go on with it. -/
theorem exists_utf8EncodeChar_eq (c : Char) :
    ∃ lead later, String.utf8EncodeChar c = lead :: later ∧ isContinuation lead = false ∧
      ∀ b ∈ later, isContinuation b = true := by
  have hvalid : c.toNat < 0xD800 ∨ 0xDFFF < c.toNat ∧ c.toNat < 0x110000 := c.valid
  have hval : c.val.toNat = c.toNat := rfl
  rw [String.utf8EncodeChar]
  simp only [hval]
  split_ifs with hone htwo hthree
  · exact ⟨_, [], rfl, isContinuation_lead (by omega), by simp⟩
  all_goals
    refine ⟨_, _, rfl, isContinuation_lead (by omega), ?_⟩
    simp only [List.forall_mem_cons, isContinuation_bits, List.not_mem_nil, false_imp_iff,
      implies_true, and_self]

theorem length_flatMap_utf8EncodeChar (chars : List Char) :
    (chars.flatMap String.utf8EncodeChar).length = String.utf8Len chars := by
  induction chars with
  | nil => rfl
  | cons c chars ih =>
    rw [List.flatMap_cons, List.length_append, ih, String.length_utf8EncodeChar,
      String.utf8Len_cons, Nat.add_comm]

section Characters

variable {before after : List Char}

/-- A text can be cut between any two of its characters. -/
theorem isBoundary_flatMap :
    isBoundary ((before ++ after).flatMap String.utf8EncodeChar) (String.utf8Len before) =
      true := by
  rw [List.flatMap_append, ← length_flatMap_utf8EncodeChar]
  refine isBoundary_append fun b hb ↦ ?_
  cases after with
  | nil => cases hb
  | cons c after =>
    obtain ⟨lead, later, hc, hlead, -⟩ := exists_utf8EncodeChar_eq c
    rw [List.flatMap_cons, hc] at hb
    obtain rfl := Option.some.inj hb
    exact hlead

/-- The search goes back over the character that it starts in, and no further. -/
theorem lastBoundary?_flatMap {c : Char} {offset : Nat} (hoffset : offset < c.utf8Size) :
    lastBoundary? ((before ++ c :: after).flatMap String.utf8EncodeChar)
      (String.utf8Len before + offset) = some (String.utf8Len before) := by
  obtain ⟨lead, later, hc, hlead, hlater⟩ := exists_utf8EncodeChar_eq c
  have hlength : later.length + 1 = c.utf8Size := by
    rw [← String.length_utf8EncodeChar, hc, List.length_cons]
  rw [List.flatMap_append, List.flatMap_cons, hc, ← length_flatMap_utf8EncodeChar]
  exact lastBoundary?_within hlead hlater (by omega)

end Characters

theorem length_encode (text : String) : (encode text).length = text.utf8ByteSize := by
  rw [encode, length_flatMap_utf8EncodeChar, String.utf8Len_toList]

theorem slice?_append (kept rest : String) :
    slice? (kept ++ rest) kept.utf8ByteSize = some kept := by
  have hboundary : isBoundary (encode (kept ++ rest)) kept.utf8ByteSize = true := by
    rw [encode, String.toList_append, ← String.utf8Len_toList kept]
    exact isBoundary_flatMap
  rw [slice?, if_pos hboundary, encode_append, ← length_encode, List.take_left]
  exact decodeStrict?_encode kept

end Utf8

namespace Audit

/-! ### The characters that fit -/

section Fitting

variable {size : Nat} {chars other rest : List Char} {c : Char}

theorem fitting_prefix (size : Nat) (chars : List Char) : fitting size chars <+: chars := by
  induction chars generalizing size with
  | nil => exact List.prefix_rfl
  | cons c chars ih =>
    rw [fitting]
    split_ifs with hfits
    · exact List.cons_prefix_cons.mpr ⟨rfl, ih _⟩
    · exact List.nil_prefix

theorem utf8Len_fitting_le (size : Nat) (chars : List Char) :
    String.utf8Len (fitting size chars) ≤ size := by
  induction chars generalizing size with
  | nil => exact Nat.zero_le _
  | cons c chars ih =>
    rw [fitting]
    split_ifs with hfits
    · have hrest := ih (size - c.utf8Size)
      rw [String.utf8Len_cons]
      omega
    · exact Nat.zero_le _

/-- A beginning that fits is a beginning of the one that is taken. -/
theorem prefix_fitting (hother : other <+: chars) (hfits : String.utf8Len other ≤ size) :
    other <+: fitting size chars := by
  induction chars generalizing size other with
  | nil => exact hother
  | cons c chars ih =>
    cases other with
    | nil => exact List.nil_prefix
    | cons d other =>
      obtain ⟨rfl, hrest⟩ := List.cons_prefix_cons.mp hother
      rw [String.utf8Len_cons] at hfits
      rw [fitting, if_pos (by omega)]
      exact List.cons_prefix_cons.mpr ⟨rfl, ih hrest (by omega)⟩

/-- The character behind those that are taken has no room any more. -/
theorem lt_utf8Len_fitting_add (h : fitting size chars ++ c :: rest = chars) :
    size < String.utf8Len (fitting size chars) + c.utf8Size := by
  by_contra hfits
  have hlonger : fitting size chars ++ [c] <+: chars := ⟨rest, by simpa using h⟩
  have htaken := @prefix_fitting size chars _ hlonger (by simpa using hfits)
  have hlength := htaken.length_le
  simp at hlength

/-- Where a text does not fit, the search from the end of the room goes back to the end of what is
taken, over three bytes at most. -/
theorem lastBoundary?_eq_some {text : String} (h : size < text.utf8ByteSize) :
    let kept := String.utf8Len (fitting size text.toList)
    Utf8.lastBoundary? (Utf8.encode text) size = some kept ∧ size ≤ kept + 3 := by
  intro kept
  have hle : kept ≤ size := utf8Len_fitting_le size text.toList
  obtain ⟨rest, hrest⟩ := fitting_prefix size text.toList
  cases rest with
  | nil =>
    have hwhole : kept = text.utf8ByteSize := by
      rw [← String.utf8Len_toList, ← hrest, List.append_nil]
    omega
  | cons c rest =>
    have hlt : size < kept + c.utf8Size := lt_utf8Len_fitting_add hrest
    have hfour : c.utf8Size ≤ 4 := c.utf8Size_le_four
    have hsearch : Utf8.lastBoundary? ((fitting size text.toList ++ c :: rest).flatMap
        String.utf8EncodeChar) (kept + (size - kept)) = some kept :=
      Utf8.lastBoundary?_flatMap (by omega)
    rw [hrest, Nat.add_sub_cancel' hle] at hsearch
    exact ⟨hsearch, by omega⟩

end Fitting

/-! ### The cut -/

/-- A text cut on its bytes, where every step may fail: there may be less room than the ellipsis
takes, the search may leave the text, and a character may stand across the cut. -/
def cut? (size : Nat) (text : String) : Option String :=
  if (Utf8.encode text).length ≤ size then some text
  else if size < ellipsis.utf8ByteSize then none
  else do
    let position ← Utf8.lastBoundary? (Utf8.encode text) (size - ellipsis.utf8ByteSize)
    let kept ← Utf8.slice? text position
    return kept ++ ellipsis

/-- The longest beginning of a text, in whole characters, that fits into so many bytes. -/
structure IsLongestFitting (size : Nat) (text kept : String) : Prop where
  isPrefix : kept.toList <+: text.toList
  fits : kept.utf8ByteSize ≤ size
  longest : ∀ other : String, other.toList <+: text.toList → other.utf8ByteSize ≤ size →
    other.toList <+: kept.toList

theorem isLongestFitting_fitting (size : Nat) (text : String) :
    IsLongestFitting size text (String.ofList (fitting size text.toList)) where
  isPrefix := by
    rw [String.toList_ofList]
    exact fitting_prefix size text.toList
  fits := by
    rw [String.utf8ByteSize_ofList]
    exact utf8Len_fitting_le size text.toList
  longest other hother hfits := by
    rw [← String.utf8Len_toList] at hfits
    rw [String.toList_ofList]
    exact prefix_fitting hother hfits

@[simp]
theorem utf8ByteSize_ellipsis : ellipsis.utf8ByteSize = 3 := rfl

theorem truncate_of_le {size : Nat} {text : String} (h : text.utf8ByteSize ≤ size) :
    truncate size text = text :=
  if_pos h

theorem truncate_of_lt {size : Nat} {text : String} (h : size < text.utf8ByteSize) :
    truncate size text = String.ofList (fitting (size - 3) text.toList) ++ ellipsis :=
  if_neg (Nat.not_le.mpr h)

theorem utf8ByteSize_truncate_of_lt {size : Nat} {text : String} (h : size < text.utf8ByteSize) :
    (truncate size text).utf8ByteSize = String.utf8Len (fitting (size - 3) text.toList) + 3 := by
  rw [truncate_of_lt h, String.utf8ByteSize_append, String.utf8ByteSize_ofList,
    utf8ByteSize_ellipsis]

theorem utf8ByteSize_truncate_le {size : Nat} (hsize : 3 ≤ size) (text : String) :
    (truncate size text).utf8ByteSize ≤ size := by
  by_cases hfits : text.utf8ByteSize ≤ size
  · rwa [truncate_of_le hfits]
  · have hkept := utf8Len_fitting_le (size - 3) text.toList
    rw [utf8ByteSize_truncate_of_lt (Nat.lt_of_not_le hfits)]
    omega

theorem le_utf8ByteSize_truncate {size : Nat} {text : String} (h : size < text.utf8ByteSize) :
    size - 3 ≤ (truncate size text).utf8ByteSize := by
  have hroom : size - 3 < text.utf8ByteSize := Nat.lt_of_le_of_lt (Nat.sub_le size 3) h
  rw [utf8ByteSize_truncate_of_lt h]
  exact (lastBoundary?_eq_some hroom).2

theorem cut?_eq_some {size : Nat} (hsize : 3 ≤ size) (text : String) :
    cut? size text = some (truncate size text) := by
  rw [cut?, Utf8.length_encode, utf8ByteSize_ellipsis]
  split_ifs with hfits hroom
  · rw [truncate_of_le hfits]
  · exact absurd hsize (Nat.not_le.mpr hroom)
  · have hlong : size < text.utf8ByteSize := Nat.lt_of_not_le hfits
    have hsearch := (lastBoundary?_eq_some (Nat.lt_of_le_of_lt (Nat.sub_le size 3) hlong)).1
    obtain ⟨rest, hrest⟩ := fitting_prefix (size - 3) text.toList
    have hslice := Utf8.slice?_append (String.ofList (fitting (size - 3) text.toList))
      (String.ofList rest)
    rw [← String.ofList_append, hrest, String.ofList_toList, String.utf8ByteSize_ofList] at hslice
    rw [hsearch, truncate_of_lt hlong]
    simp only [Option.bind_eq_bind, Option.bind_some, hslice]
    rfl

/-- A text that fits is not cut. Any other is cut to the longest beginning that leaves room for the
ellipsis, and to at most three bytes less than there is room for. No step of the cut fails. -/
theorem truncate_keeps_longest {size : Nat} (hsize : 3 ≤ size) (text : String) :
    cut? size text = some (truncate size text) ∧
      (text.utf8ByteSize ≤ size → truncate size text = text) ∧
      (size < text.utf8ByteSize → ∃ kept, IsLongestFitting (size - 3) text kept ∧
        truncate size text = kept ++ "..." ∧
          size - 3 ≤ (truncate size text).utf8ByteSize ∧
            (truncate size text).utf8ByteSize ≤ size) :=
  ⟨cut?_eq_some hsize text, truncate_of_le, fun hlong ↦
    ⟨_, isLongestFitting_fitting (size - 3) text, truncate_of_lt hlong,
      le_utf8ByteSize_truncate hlong, utf8ByteSize_truncate_le hsize text⟩⟩

/-- The third of the characters stands across the end of the room. -/
theorem truncate_keeps_longest_euro :
    3 ≤ 8 ∧ 8 < "aé€😀".utf8ByteSize ∧ cut? 8 "aé€😀" = some "aé..." ∧
      ∃ kept, IsLongestFitting 5 "aé€😀" kept ∧ "aé..." = kept ++ "..." := by
  have hsize : 3 ≤ 8 := by decide
  have hlong : 8 < "aé€😀".utf8ByteSize := by decide
  have htruncate : truncate 8 "aé€😀" = "aé..." := by decide
  obtain ⟨hcut, -, hkept⟩ := truncate_keeps_longest hsize "aé€😀"
  rw [htruncate] at hcut hkept
  obtain ⟨kept, hlongest, heq, -⟩ := hkept hlong
  exact ⟨hsize, hlong, hcut, kept, hlongest, heq⟩

/-- Whatever the arguments of a run are, summing them up does not fail, and takes no more than the
bytes that there are for it. -/
theorem cut?_summary (args : List String) :
    cut? summarySize (" ".intercalate args) = some (summary args) ∧
      (summary args).utf8ByteSize ≤ summarySize := by
  have hsize : 3 ≤ summarySize := by decide
  exact ⟨cut?_eq_some hsize _, utf8ByteSize_truncate_le hsize _⟩

end Audit

end CommandScript
