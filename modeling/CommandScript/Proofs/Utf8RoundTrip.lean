import CommandScript.Text.Utf8
import Mathlib.Tactic.SplitIfs
/-!
# Decoding what was encoded

The bytes of a text decode to the text (`decode_encode`), whatever stands behind them. A lead byte
carries the upper bits of its character and bounds the byte behind it (`ofLead?_of_two_bytes` and
the two that follow); each further byte adds six bits, and the bounds hold because a character is
neither a surrogate nor encoded in more bytes than it needs. Bytes below 0x80 stand for themselves
and occur nowhere else (`toNat_of_mem_utf8EncodeChar`).
-/

set_option autoImplicit false
set_option relaxedAutoImplicit false

namespace CommandScript

namespace Utf8

theorem toNat_ofNat {n : Nat} (h : n < 256) : (UInt8.ofNat n).toNat = n := by
  simpa using Nat.mod_eq_of_lt h

theorem toNat_ne {a b : UInt8} (h : a ≠ b) : a.toNat ≠ b.toNat :=
  fun heq ↦ h (UInt8.toNat_inj.mp heq)

/-! ### Lead bytes -/

namespace Pending

theorem ofLead?_of_two_bytes {b : UInt8} (hlow : 0xC2 ≤ b.toNat) (hhigh : b.toNat ≤ 0xDF) :
    ofLead? b = some ⟨b.toNat - 0xC0, 0x80, 0xBF, 0⟩ := by
  rw [ofLead?, if_pos ⟨UInt8.le_iff_toNat_le.mpr hlow, UInt8.le_iff_toNat_le.mpr hhigh⟩]

theorem ofLead?_of_three_bytes {b : UInt8} (hlow : 0xE0 ≤ b.toNat) (hhigh : b.toNat ≤ 0xEF) :
    ofLead? b = some ⟨b.toNat - 0xE0, if b.toNat = 0xE0 then 0xA0 else 0x80,
      if b.toNat = 0xED then 0x9F else 0xBF, 1⟩ := by
  by_cases hE0 : b = 0xE0
  · subst hE0
    rfl
  by_cases hED : b = 0xED
  · subst hED
    rfl
  have hfirst : b.toNat ≠ 0xE0 := toNat_ne hE0
  have hlast : b.toNat ≠ 0xED := toNat_ne hED
  have htwo : ¬(0xC2 ≤ b ∧ b ≤ 0xDF) := by
    rintro ⟨-, h⟩
    have hle : b.toNat ≤ 0xDF := UInt8.le_iff_toNat_le.mp h
    omega
  have hthree : 0xE1 ≤ b ∧ b ≤ 0xEF := by
    refine ⟨UInt8.le_iff_toNat_le.mpr ?_, UInt8.le_iff_toNat_le.mpr hhigh⟩
    change 0xE1 ≤ b.toNat
    omega
  rw [ofLead?, if_neg htwo, if_neg hE0, if_neg hED, if_pos hthree, if_neg hfirst,
    if_neg hlast]

theorem ofLead?_of_four_bytes {b : UInt8} (hlow : 0xF0 ≤ b.toNat) (hhigh : b.toNat ≤ 0xF4) :
    ofLead? b = some ⟨b.toNat - 0xF0, if b.toNat = 0xF0 then 0x90 else 0x80,
      if b.toNat = 0xF4 then 0x8F else 0xBF, 2⟩ := by
  by_cases hF0 : b = 0xF0
  · subst hF0
    rfl
  by_cases hF4 : b = 0xF4
  · subst hF4
    rfl
  have hfirst : b.toNat ≠ 0xF0 := toNat_ne hF0
  have hlast : b.toNat ≠ 0xF4 := toNat_ne hF4
  have htwo : ¬(0xC2 ≤ b ∧ b ≤ 0xDF) := by
    rintro ⟨-, h⟩
    have hle : b.toNat ≤ 0xDF := UInt8.le_iff_toNat_le.mp h
    omega
  have hthree : ¬(0xE1 ≤ b ∧ b ≤ 0xEF) := by
    rintro ⟨-, h⟩
    have hle : b.toNat ≤ 0xEF := UInt8.le_iff_toNat_le.mp h
    omega
  have hfour : 0xF1 ≤ b ∧ b ≤ 0xF3 := by
    refine ⟨UInt8.le_iff_toNat_le.mpr ?_, UInt8.le_iff_toNat_le.mpr ?_⟩
    · change 0xF1 ≤ b.toNat
      omega
    · change b.toNat ≤ 0xF3
      omega
  have hE0 : b ≠ 0xE0 := by
    rintro rfl
    exact absurd hlow (by decide)
  have hED : b ≠ 0xED := by
    rintro rfl
    exact absurd hlow (by decide)
  rw [ofLead?, if_neg htwo, if_neg hE0, if_neg hED, if_neg hthree, if_neg hF0, if_pos hfour,
    if_neg hfirst, if_neg hlast]

/-! ### Bytes within a character -/

/-- A byte within its bounds adds six bits. -/
theorem step_of_bounds {p : Pending} {bits : Nat} (hbits : bits < 64)
    (hlow : p.low.toNat ≤ bits + 0x80) (hhigh : bits + 0x80 ≤ p.high.toNat) :
    p.step (UInt8.ofNat (bits + 0x80)) =
      match p.later with
      | 0 => ([Char.ofNat (p.value * 64 + bits)], none)
      | later + 1 => ([], some ⟨p.value * 64 + bits, 0x80, 0xBF, later⟩) := by
  have hvalue : (UInt8.ofNat (bits + 0x80)).toNat = bits + 0x80 := toNat_ofNat (by omega)
  have hbounds : p.low ≤ UInt8.ofNat (bits + 0x80) ∧ UInt8.ofNat (bits + 0x80) ≤ p.high := by
    rw [UInt8.le_iff_toNat_le, UInt8.le_iff_toNat_le, hvalue]
    exact ⟨hlow, hhigh⟩
  have hpayload : bits + 0x80 - 0x80 = bits := Nat.add_sub_cancel _ _
  rcases p with ⟨value, low, high, _ | later⟩
  · simp only [step, hbounds, and_self, ↓reduceIte, hvalue, hpayload]
  · simp only [step, hbounds, and_self, ↓reduceIte, hvalue, hpayload]

end Pending

theorem decodeFrom_opened {b : UInt8} {p : Pending} (hb : 0x80 ≤ b.toNat)
    (hlead : Pending.ofLead? b = some p) (rest : Bytes) :
    decodeFrom none (b :: rest) = decodeFrom (some p) rest := by
  have hnot : ¬ b < 0x80 := by
    intro hlt
    have hnat : b.toNat < 0x80 := UInt8.lt_iff_toNat_lt.mp hlt
    omega
  simp only [decodeFrom, step, opening, if_neg hnot, hlead, List.nil_append]

theorem decodeFrom_last {value bits : Nat} {low high : UInt8} (hbits : bits < 64)
    (hlow : low.toNat ≤ bits + 0x80) (hhigh : bits + 0x80 ≤ high.toNat) (rest : Bytes) :
    decodeFrom (some ⟨value, low, high, 0⟩) (UInt8.ofNat (bits + 0x80) :: rest) =
      Char.ofNat (value * 64 + bits) :: decodeFrom none rest := by
  have hstep := Pending.step_of_bounds (p := ⟨value, low, high, 0⟩) hbits hlow hhigh
  rw [decodeFrom, step, hstep]
  rfl

theorem decodeFrom_later {value bits later : Nat} {low high : UInt8} (hbits : bits < 64)
    (hlow : low.toNat ≤ bits + 0x80) (hhigh : bits + 0x80 ≤ high.toNat) (rest : Bytes) :
    decodeFrom (some ⟨value, low, high, later + 1⟩) (UInt8.ofNat (bits + 0x80) :: rest) =
      decodeFrom (some ⟨value * 64 + bits, 0x80, 0xBF, later⟩) rest := by
  have hstep := Pending.step_of_bounds (p := ⟨value, low, high, later + 1⟩) hbits hlow hhigh
  rw [decodeFrom, step, hstep]
  rfl

/-! ### Characters -/

theorem decodeFrom_one_byte {n : Nat} (h : n < 0x80) (rest : Bytes) :
    decodeFrom none (UInt8.ofNat n :: rest) = Char.ofNat n :: decodeFrom none rest := by
  have hvalue : (UInt8.ofNat n).toNat = n := toNat_ofNat (by omega)
  have hlt : UInt8.ofNat n < 0x80 := by
    rw [UInt8.lt_iff_toNat_lt, hvalue]
    exact h
  rw [decodeFrom, step, opening, if_pos hlt, hvalue]
  rfl

theorem decodeFrom_two_bytes {n : Nat} (hlow : 0x80 ≤ n) (hhigh : n < 0x800) (rest : Bytes) :
    decodeFrom none (UInt8.ofNat (n / 64 % 0x20 + 0xC0) :: UInt8.ofNat (n % 0x40 + 0x80) :: rest) =
      Char.ofNat n :: decodeFrom none rest := by
  have hvalue : (UInt8.ofNat (n / 64 % 0x20 + 0xC0)).toNat = n / 64 + 0xC0 := by
    rw [toNat_ofNat (by omega)]
    omega
  have hlead := Pending.ofLead?_of_two_bytes (b := UInt8.ofNat (n / 64 % 0x20 + 0xC0))
    (by omega) (by omega)
  have hbits : (0x80 : UInt8).toNat ≤ n % 0x40 + 0x80 ∧ n % 0x40 + 0x80 ≤ (0xBF : UInt8).toNat := by
    change 0x80 ≤ _ ∧ _ ≤ 0xBF
    omega
  have hchar : (n / 64 + 0xC0 - 0xC0) * 64 + n % 0x40 = n := by omega
  rw [decodeFrom_opened (by omega) hlead, decodeFrom_last (by omega) hbits.1 hbits.2, hvalue, hchar]

theorem decodeFrom_three_bytes {n : Nat} (hlow : 0x800 ≤ n) (hhigh : n < 0x10000)
    (hvalid : n < 0xD800 ∨ 0xDFFF < n) (rest : Bytes) :
    decodeFrom none (UInt8.ofNat (n / 4096 % 0x10 + 0xE0) :: UInt8.ofNat (n / 64 % 0x40 + 0x80) ::
        UInt8.ofNat (n % 0x40 + 0x80) :: rest) =
      Char.ofNat n :: decodeFrom none rest := by
  have hvalue : (UInt8.ofNat (n / 4096 % 0x10 + 0xE0)).toNat = n / 4096 + 0xE0 := by
    rw [toNat_ofNat (by omega)]
    omega
  have hlead := Pending.ofLead?_of_three_bytes (b := UInt8.ofNat (n / 4096 % 0x10 + 0xE0))
    (by omega) (by omega)
  -- The bounds on the second byte keep overlong forms and surrogates out.
  have hsecond : (if n / 4096 + 0xE0 = 0xE0 then 0xA0 else (0x80 : UInt8)).toNat
        ≤ n / 64 % 0x40 + 0x80 ∧
      n / 64 % 0x40 + 0x80 ≤
        (if n / 4096 + 0xE0 = 0xED then 0x9F else (0xBF : UInt8)).toNat := by
    constructor
    · split_ifs with hE0
      · change 0xA0 ≤ _
        omega
      · change 0x80 ≤ _
        omega
    · split_ifs with hED
      · change _ ≤ 0x9F
        omega
      · change _ ≤ 0xBF
        omega
  have hthird :
      (0x80 : UInt8).toNat ≤ n % 0x40 + 0x80 ∧ n % 0x40 + 0x80 ≤ (0xBF : UInt8).toNat := by
    change 0x80 ≤ _ ∧ _ ≤ 0xBF
    omega
  have hchar : ((n / 4096 + 0xE0 - 0xE0) * 64 + n / 64 % 0x40) * 64 + n % 0x40 = n := by omega
  rw [hvalue] at hlead
  rw [decodeFrom_opened (by omega) hlead, decodeFrom_later (by omega) hsecond.1 hsecond.2,
    decodeFrom_last (by omega) hthird.1 hthird.2, hchar]

theorem decodeFrom_four_bytes {n : Nat} (hlow : 0x10000 ≤ n) (hhigh : n < 0x110000) (rest : Bytes) :
    decodeFrom none (UInt8.ofNat (n / 262144 % 0x08 + 0xF0) ::
        UInt8.ofNat (n / 4096 % 0x40 + 0x80) :: UInt8.ofNat (n / 64 % 0x40 + 0x80) ::
          UInt8.ofNat (n % 0x40 + 0x80) :: rest) =
      Char.ofNat n :: decodeFrom none rest := by
  have hvalue : (UInt8.ofNat (n / 262144 % 0x08 + 0xF0)).toNat = n / 262144 + 0xF0 := by
    rw [toNat_ofNat (by omega)]
    omega
  have hlead := Pending.ofLead?_of_four_bytes (b := UInt8.ofNat (n / 262144 % 0x08 + 0xF0))
    (by omega) (by omega)
  -- The bounds on the second byte keep overlong forms and values past the last character out.
  have hsecond : (if n / 262144 + 0xF0 = 0xF0 then 0x90 else (0x80 : UInt8)).toNat
        ≤ n / 4096 % 0x40 + 0x80 ∧
      n / 4096 % 0x40 + 0x80 ≤
        (if n / 262144 + 0xF0 = 0xF4 then 0x8F else (0xBF : UInt8)).toNat := by
    constructor
    · split_ifs with hF0
      · change 0x90 ≤ _
        omega
      · change 0x80 ≤ _
        omega
    · split_ifs with hF4
      · change _ ≤ 0x8F
        omega
      · change _ ≤ 0xBF
        omega
  have hthird : (0x80 : UInt8).toNat ≤ n / 64 % 0x40 + 0x80 ∧
      n / 64 % 0x40 + 0x80 ≤ (0xBF : UInt8).toNat := by
    change 0x80 ≤ _ ∧ _ ≤ 0xBF
    omega
  have hfourth :
      (0x80 : UInt8).toNat ≤ n % 0x40 + 0x80 ∧ n % 0x40 + 0x80 ≤ (0xBF : UInt8).toNat := by
    change 0x80 ≤ _ ∧ _ ≤ 0xBF
    omega
  have hchar : (((n / 262144 + 0xF0 - 0xF0) * 64 + n / 4096 % 0x40) * 64 + n / 64 % 0x40) * 64 +
      n % 0x40 = n := by
    omega
  rw [hvalue] at hlead
  rw [decodeFrom_opened (by omega) hlead, decodeFrom_later (by omega) hsecond.1 hsecond.2,
    decodeFrom_later (by omega) hthird.1 hthird.2, decodeFrom_last (by omega) hfourth.1 hfourth.2,
    hchar]

theorem decodeFrom_utf8EncodeChar (c : Char) (rest : Bytes) :
    decodeFrom none (String.utf8EncodeChar c ++ rest) = c :: decodeFrom none rest := by
  have hvalid : c.toNat < 0xD800 ∨ 0xDFFF < c.toNat ∧ c.toNat < 0x110000 := c.valid
  have hchar : Char.ofNat c.toNat = c := Char.ofNat_toNat c
  have hval : c.val.toNat = c.toNat := rfl
  rw [String.utf8EncodeChar]
  simp only [hval]
  split_ifs with hone htwo hthree
  · rw [List.singleton_append, decodeFrom_one_byte (by omega), hchar]
  · simp only [List.cons_append, List.nil_append]
    rw [decodeFrom_two_bytes (by omega) (by omega), hchar]
  · simp only [List.cons_append, List.nil_append]
    rw [decodeFrom_three_bytes (by omega) (by omega) (by omega), hchar]
  · simp only [List.cons_append, List.nil_append]
    rw [decodeFrom_four_bytes (by omega) (by omega), hchar]

theorem decodeFrom_flatMap (chars : List Char) (rest : Bytes) :
    decodeFrom none (chars.flatMap String.utf8EncodeChar ++ rest) =
      chars ++ decodeFrom none rest := by
  induction chars with
  | nil => rfl
  | cons c chars ih =>
    rw [List.flatMap_cons, List.append_assoc, decodeFrom_utf8EncodeChar, ih, List.cons_append]

/-- The bytes of a text decode to the text. -/
@[simp]
theorem decode_encode (text : String) : decode (encode text) = text := by
  have h := decodeFrom_flatMap text.toList []
  rw [List.append_nil] at h
  rw [decode, encode, h, decodeFrom, List.append_nil, String.ofList_toList]

theorem decodeStrict?_encode (text : String) : decodeStrict? (encode text) = some text := by
  rw [decodeStrict?, decode_encode, if_pos rfl]

theorem encode_ofList (chars : List Char) :
    encode (String.ofList chars) = chars.flatMap String.utf8EncodeChar := by
  rw [encode, String.toList_ofList]

/-- A byte below 0x80 is a character of its own. -/
theorem toNat_of_mem_utf8EncodeChar {c : Char} {b : UInt8} (hb : b ∈ String.utf8EncodeChar c)
    (hlt : b.toNat < 0x80) : c.toNat = b.toNat := by
  have hval : c.val.toNat = c.toNat := rfl
  rw [String.utf8EncodeChar] at hb
  simp only [hval] at hb
  have hlater : ∀ {n : Nat}, 0x80 ≤ n → n < 256 → b ≠ UInt8.ofNat n := by
    intro n hlow hhigh heq
    rw [heq, toNat_ofNat hhigh] at hlt
    omega
  split_ifs at hb with hone htwo hthree
  · rw [List.mem_singleton.mp hb, toNat_ofNat (by omega)]
  · simp only [List.mem_cons, List.not_mem_nil, or_false] at hb
    rcases hb with hb | hb
    · exact absurd hb (hlater (by omega) (by omega))
    · exact absurd hb (hlater (by omega) (by omega))
  · simp only [List.mem_cons, List.not_mem_nil, or_false] at hb
    rcases hb with hb | hb | hb
    · exact absurd hb (hlater (by omega) (by omega))
    · exact absurd hb (hlater (by omega) (by omega))
    · exact absurd hb (hlater (by omega) (by omega))
  · simp only [List.mem_cons, List.not_mem_nil, or_false] at hb
    rcases hb with hb | hb | hb | hb
    · exact absurd hb (hlater (by omega) (by omega))
    · exact absurd hb (hlater (by omega) (by omega))
    · exact absurd hb (hlater (by omega) (by omega))
    · exact absurd hb (hlater (by omega) (by omega))

end Utf8

end CommandScript
