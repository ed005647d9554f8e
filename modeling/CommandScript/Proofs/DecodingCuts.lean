import CommandScript.Proofs.Utf8RoundTrip
import Mathlib.Algebra.Group.Nat.Defs
import Mathlib.Data.List.Basic
/-!
# Decoding around ASCII bytes

A byte below 0x80 is a character of its own wherever it stands, and breaks off what is under way.
So bytes may be cut in front of it and behind it, and each part be decoded for itself
(`decodeFrom_append_cons`). In return, bytes from 0x80 on never decode to a character below U+0080.
What a character under way can still become lies between two bounds that only draw closer with each
byte (`Pending.Stepped`, `decodeFrom_some_eq_cons`). They also tell which bytes a byte-order mark
was decoded from (`eq_append_of_decodeFrom_eq_cons`).
-/

set_option autoImplicit false
set_option relaxedAutoImplicit false

namespace CommandScript

namespace Utf8

/-! ### What a character under way can become -/

namespace Pending

/-- The least value that the character can have. -/
def least (p : Pending) : Nat := (p.value * 64 + (p.low.toNat - 0x80)) * 64 ^ p.later

/-- The value that the character stays below. -/
def bound (p : Pending) : Nat := (p.value * 64 + (p.high.toNat - 0x80) + 1) * 64 ^ p.later

theorem least_mk (value later : Nat) :
    least ⟨value, 0x80, 0xBF, later⟩ = value * 64 ^ (later + 1) := by
  simp [least, Nat.pow_succ', Nat.mul_assoc]

theorem bound_mk (value later : Nat) :
    bound ⟨value, 0x80, 0xBF, later⟩ = (value + 1) * 64 ^ (later + 1) := by
  have hvalue : value * 64 + 63 + 1 = (value + 1) * 64 := by omega
  simp [bound, Nat.pow_succ', ← Nat.mul_assoc, hvalue]

/-- The next byte is none of the ASCII bytes, and the values in reach are characters, none of them
below U+0080. -/
structure IsSound (p : Pending) : Prop where
  le_low : 0x80 ≤ p.low.toNat
  high_le : p.high.toNat ≤ 0xBF
  le_least : 0x80 ≤ p.least
  bound_le : p.bound ≤ 0xD800 ∨ 0xE000 ≤ p.least ∧ p.bound ≤ 0x110000

theorem isSound_of_ofLead? {b : UInt8} {p : Pending} (h : ofLead? b = some p) : p.IsSound := by
  have hb := b.toNat_lt
  unfold ofLead? at h
  simp only [UInt8.le_iff_toNat_le, ← UInt8.toNat_inj] at h
  split_ifs at h with htwo hE0 hED hthree hF0 hfour hF4
  all_goals
    obtain rfl := Option.some.inj h
    constructor
    all_goals
      simp [Pending.least, Pending.bound] at *
      try omega

variable {p : Pending} {b : UInt8}

/-- A byte within its bounds draws the bounds of the character closer. -/
theorem IsSound.of_later {later : Nat} (hp : p.IsSound) (hlater : p.later = later + 1)
    (hlow : p.low.toNat ≤ b.toNat) (hhigh : b.toNat ≤ p.high.toNat) :
    let next : Pending := ⟨p.value * 64 + (b.toNat - 0x80), 0x80, 0xBF, later⟩
    next.IsSound ∧ p.least ≤ next.least ∧ next.bound ≤ p.bound := by
  intro next
  have hleast : p.least ≤ next.least := by
    rw [least_mk, Pending.least, hlater]
    exact Nat.mul_le_mul_right _ (by omega)
  have hbound : next.bound ≤ p.bound := by
    rw [bound_mk, Pending.bound, hlater]
    exact Nat.mul_le_mul_right _ (by omega)
  refine ⟨⟨Nat.le_refl _, Nat.le_refl _, Nat.le_trans hp.le_least hleast, ?_⟩, hleast, hbound⟩
  rcases hp.bound_le with h | ⟨hfirst, hlast⟩
  · exact Or.inl (Nat.le_trans hbound h)
  · exact Or.inr ⟨Nat.le_trans hfirst hleast, Nat.le_trans hbound hlast⟩

/-- The value that the last byte makes is a character between the bounds. -/
theorem IsSound.toNat_ofNat (hp : p.IsSound) (hlater : p.later = 0)
    (hlow : p.low.toNat ≤ b.toNat) (hhigh : b.toNat ≤ p.high.toNat) :
    let value := p.value * 64 + (b.toNat - 0x80)
    (Char.ofNat value).toNat = value ∧ p.least ≤ value ∧ value < p.bound := by
  intro value
  have hleast : p.least ≤ value := by
    rw [Pending.least, hlater, Nat.pow_zero, Nat.mul_one]
    omega
  have hbound : value < p.bound := by
    rw [Pending.bound, hlater, Nat.pow_zero, Nat.mul_one]
    omega
  have hvalid : value.isValidChar := by
    rcases hp.bound_le with h | ⟨hfirst, hlast⟩
    · exact Or.inl (Nat.lt_of_lt_of_le hbound h)
    · exact Or.inr ⟨Nat.lt_of_lt_of_le (by decide) (Nat.le_trans hfirst hleast),
        Nat.lt_of_lt_of_le hbound hlast⟩
  refine ⟨?_, hleast, hbound⟩
  rw [Char.ofNat, dif_pos hvalid]
  rfl

/-- What a byte does to a character under way: it ends it between its bounds, carries it on and
draws the bounds closer, or breaks it off. -/
inductive Stepped (p : Pending) (b : UInt8) : List Char × Option Pending → Prop
  | last {c : Char} (later : p.later = 0) (digit : 0x80 ≤ b.toNat ∧ b.toNat ≤ 0xBF)
      (value : c.toNat = p.value * 64 + (b.toNat - 0x80)) (least : p.least ≤ c.toNat)
      (bound : c.toNat < p.bound) : Stepped p b ([c], none)
  | more {next : Pending} (later : p.later = next.later + 1)
      (digit : 0x80 ≤ b.toNat ∧ b.toNat ≤ 0xBF)
      (value : next.value = p.value * 64 + (b.toNat - 0x80)) (sound : next.IsSound)
      (least : p.least ≤ next.least) (bound : next.bound ≤ p.bound) : Stepped p b ([], some next)
  | broken : Stepped p b (replacement :: (opening b).1, (opening b).2)

theorem IsSound.stepped {result : List Char × Option Pending} (hp : p.IsSound)
    (h : Utf8.step (some p) b = result) : p.Stepped b result := by
  rw [← h, Utf8.step, step]
  by_cases hb : p.low ≤ b ∧ b ≤ p.high
  · have hdigit : 0x80 ≤ b.toNat ∧ b.toNat ≤ 0xBF :=
      ⟨Nat.le_trans hp.le_low hb.1, Nat.le_trans hb.2 hp.high_le⟩
    rw [if_pos hb]
    cases hlater : p.later with
    | zero =>
      obtain ⟨hvalue, hleast, hbound⟩ := hp.toNat_ofNat hlater hb.1 hb.2
      rw [← hvalue] at hleast hbound
      exact .last hlater hdigit hvalue hleast hbound
    | succ later =>
      obtain ⟨hnext, hleast, hbound⟩ := hp.of_later hlater hb.1 hb.2
      exact .more hlater hdigit rfl hnext hleast hbound
  · rw [if_neg hb]
    exact .broken

end Pending

/-! ### States -/

/-- Nothing is under way, or a character that is sound. -/
def IsSoundState (state : Option Pending) : Prop := ∀ p ∈ state, p.IsSound

theorem isSoundState_none : IsSoundState none := fun _ h ↦ nomatch h

theorem isSoundState_some {p : Pending} (hp : p.IsSound) : IsSoundState (some p) := by
  rintro other ⟨⟩
  exact hp

theorem isSoundState_opening (b : UInt8) : IsSoundState (opening b).2 := by
  unfold opening
  split
  · exact isSoundState_none
  · split
    · next p hlead => exact isSoundState_some (Pending.isSound_of_ofLead? hlead)
    · exact isSoundState_none

theorem isSoundState_step {state : Option Pending} (h : IsSoundState state) (b : UInt8) :
    IsSoundState (step state b).2 := by
  cases state with
  | none => exact isSoundState_opening b
  | some p =>
    generalize hstep : step (some p) b = result
    cases (h p rfl).stepped hstep with
    | last => exact isSoundState_none
    | more _ _ _ hnext => exact isSoundState_some hnext
    | broken => exact isSoundState_opening b

/-! ### Cuts at ASCII bytes -/

theorem opening_of_lt {b : UInt8} (hb : b < 0x80) : opening b = ([Char.ofNat b.toNat], none) :=
  if_pos hb

/-- An ASCII byte breaks off what is under way. -/
theorem step_of_lt {state : Option Pending} (h : IsSoundState state) {b : UInt8} (hb : b < 0x80) :
    step state b = (decodeFrom state [] ++ [Char.ofNat b.toNat], none) := by
  cases state with
  | none => exact opening_of_lt hb
  | some p =>
    have hlow : ¬ 0x80 ≤ b.toNat := Nat.not_le.mpr (UInt8.lt_iff_toNat_lt.mp hb)
    generalize hstep : step (some p) b = result
    cases (h p rfl).stepped hstep with
    | last _ hdigit => exact absurd hdigit.1 hlow
    | more _ hdigit => exact absurd hdigit.1 hlow
    | broken =>
      rw [opening_of_lt hb]
      rfl

/-- Bytes may be decoded apart in front of an ASCII byte and behind it. -/
theorem decodeFrom_append_cons {state : Option Pending} (h : IsSoundState state) (front : Bytes)
    {b : UInt8} (hb : b < 0x80) (rest : Bytes) :
    decodeFrom state (front ++ b :: rest) =
      decodeFrom state front ++ Char.ofNat b.toNat :: decodeFrom none rest := by
  induction front generalizing state with
  | nil =>
    rw [List.nil_append, decodeFrom, step_of_lt h hb, List.append_assoc]
    rfl
  | cons a front ih =>
    rw [List.cons_append, decodeFrom, decodeFrom, ih (isSoundState_step h a), List.append_assoc]

theorem decode_append_cons (front : Bytes) {b : UInt8} (hb : b < 0x80) (rest : Bytes) :
    (decode (front ++ b :: rest)).toList =
      (decode front).toList ++ Char.ofNat b.toNat :: (decode rest).toList := by
  simp only [decode, String.toList_ofList]
  exact decodeFrom_append_cons isSoundState_none front hb rest

/-! ### Bytes that are not ASCII -/

/-- None of the bytes is an ASCII byte. -/
def IsForeign (bytes : Bytes) : Prop := ∀ b ∈ bytes, 0x80 ≤ b

theorem le_toNat_replacement : 0x80 ≤ replacement.toNat := by decide

theorem le_toNat_of_mem_opening {b : UInt8} (hb : 0x80 ≤ b) {c : Char} (hc : c ∈ (opening b).1) :
    0x80 ≤ c.toNat := by
  rw [opening, if_neg (UInt8.not_lt.mpr hb)] at hc
  split at hc
  · cases hc
  · obtain rfl := List.mem_singleton.mp hc
    exact le_toNat_replacement

theorem le_toNat_of_mem_step {state : Option Pending} (h : IsSoundState state) {b : UInt8}
    (hb : 0x80 ≤ b) {c : Char} (hc : c ∈ (step state b).1) : 0x80 ≤ c.toNat := by
  cases state with
  | none => exact le_toNat_of_mem_opening hb hc
  | some p =>
    generalize hstep : step (some p) b = result at hc
    cases (h p rfl).stepped hstep with
    | last _ _ _ hleast =>
      rw [List.mem_singleton.mp hc]
      exact Nat.le_trans (h p rfl).le_least hleast
    | more => cases hc
    | broken =>
      rcases List.mem_cons.mp hc with rfl | hc
      · exact le_toNat_replacement
      · exact le_toNat_of_mem_opening hb hc

/-- Bytes from 0x80 on decode to characters from U+0080 on. -/
theorem le_toNat_of_mem_decodeFrom {state : Option Pending} (h : IsSoundState state)
    {bytes : Bytes} (hbytes : IsForeign bytes) {c : Char} (hc : c ∈ decodeFrom state bytes) :
    0x80 ≤ c.toNat := by
  induction bytes generalizing state with
  | nil =>
    cases state with
    | none => cases hc
    | some p =>
      obtain rfl := List.mem_singleton.mp hc
      exact le_toNat_replacement
  | cons b bytes ih =>
    rw [decodeFrom] at hc
    rcases List.mem_append.mp hc with hc | hc
    · exact le_toNat_of_mem_step h (hbytes b List.mem_cons_self) hc
    · exact ih (isSoundState_step h b) (fun a ha ↦ hbytes a (List.mem_cons_of_mem _ ha)) hc

/-! ### The first character -/

/-- The character under way comes next, between its bounds, or else what stands for it. -/
theorem decodeFrom_some_eq_cons {p : Pending} (hp : p.IsSound) (bytes : Bytes) :
    ∃ c rest, decodeFrom (some p) bytes = c :: rest ∧
      (c = replacement ∨ p.least ≤ c.toNat ∧ c.toNat < p.bound) := by
  induction bytes generalizing p with
  | nil => exact ⟨replacement, [], rfl, Or.inl rfl⟩
  | cons b bytes ih =>
    rw [decodeFrom]
    generalize hstep : step (some p) b = result
    cases hp.stepped hstep with
    | last _ _ _ hleast hbound => exact ⟨_, _, rfl, Or.inr ⟨hleast, hbound⟩⟩
    | more _ _ _ hnext hleast hbound =>
      obtain ⟨c, rest, hdecode, hc⟩ := ih hnext
      refine ⟨c, rest, hdecode, ?_⟩
      rcases hc with hc | ⟨hfirst, hlast⟩
      · exact Or.inl hc
      · exact Or.inr ⟨Nat.le_trans hleast hfirst, Nat.lt_of_lt_of_le hlast hbound⟩
    | broken => exact ⟨replacement, _, rfl, Or.inl rfl⟩

/-- Bytes that start with none of the ASCII bytes decode to a text that does not either. -/
theorem decodeFrom_eq_cons_of_le {b : UInt8} (hb : 0x80 ≤ b) (bytes : Bytes) :
    ∃ c rest, decodeFrom none (b :: bytes) = c :: rest ∧ 0x80 ≤ c.toNat := by
  have hopening : step none b = opening b := rfl
  rw [decodeFrom, hopening, opening, if_neg (UInt8.not_lt.mpr hb)]
  split
  · next p hlead =>
    have hp := Pending.isSound_of_ofLead? hlead
    obtain ⟨c, rest, hdecode, hc⟩ := decodeFrom_some_eq_cons hp bytes
    refine ⟨c, rest, hdecode, ?_⟩
    rcases hc with rfl | ⟨hleast, -⟩
    · exact le_toNat_replacement
    · exact Nat.le_trans hp.le_least hleast
  · exact ⟨replacement, _, rfl, le_toNat_replacement⟩

/-- The bytes behind a lead byte that carry the rest of the character's value. -/
theorem exists_eq_append_of_decodeFrom_some {p : Pending} (hp : p.IsSound) {bytes : Bytes}
    {c : Char} {rest : List Char} (hc : c ≠ replacement)
    (h : decodeFrom (some p) bytes = c :: rest) :
    ∃ digits tail, bytes = digits ++ tail ∧ digits.length = p.later + 1 ∧
      (∀ b ∈ digits, 0x80 ≤ b.toNat ∧ b.toNat ≤ 0xBF) ∧
      c.toNat = digits.foldl (fun value b ↦ value * 64 + (b.toNat - 0x80)) p.value := by
  induction bytes generalizing p with
  | nil =>
    obtain ⟨rfl, -⟩ := List.cons.inj h
    exact absurd rfl hc
  | cons b bytes ih =>
    rw [decodeFrom] at h
    generalize hstep : step (some p) b = result at h
    cases hp.stepped hstep with
    | last hlater hdigit hfirst =>
      obtain ⟨rfl, -⟩ := List.cons.inj h
      refine ⟨[b], bytes, rfl, by rw [hlater, List.length_singleton], ?_, hfirst⟩
      exact List.forall_mem_singleton.mpr hdigit
    | more hlater hdigit hfirst hnext =>
      rw [List.nil_append] at h
      obtain ⟨digits, tail, rfl, hlength, hdigits, hvalue⟩ := ih hnext h
      refine ⟨b :: digits, tail, rfl, by rw [List.length_cons, hlength, hlater], ?_, ?_⟩
      · exact List.forall_mem_cons.mpr ⟨hdigit, hdigits⟩
      · rw [hvalue, hfirst, List.foldl_cons]
    | broken =>
      obtain ⟨rfl, -⟩ := List.cons.inj h
      exact absurd rfl hc

/-- A lead byte decides how many bytes its character takes. -/
theorem ofLead?_eq_some_cases {b : UInt8} {p : Pending} (h : Pending.ofLead? b = some p) :
    p.later = 0 ∧ p.value + 0xC0 = b.toNat ∧ 0x80 ≤ p.least ∧ p.bound ≤ 0x800 ∨
      p.later = 1 ∧ p.value + 0xE0 = b.toNat ∧ 0x800 ≤ p.least ∧ p.bound ≤ 0x10000 ∨
        p.later = 2 ∧ p.value + 0xF0 = b.toNat ∧ 0x10000 ≤ p.least ∧ p.bound ≤ 0x110000 := by
  have hb := b.toNat_lt
  unfold Pending.ofLead? at h
  simp only [UInt8.le_iff_toNat_le, ← UInt8.toNat_inj] at h
  split_ifs at h with htwo hE0 hED hthree hF0 hfour hF4
  all_goals
    obtain rfl := Option.some.inj h
    simp [Pending.least, Pending.bound] at *
    try omega

theorem utf8EncodeChar_ofNat {b : UInt8} (hb : b < 0x80) :
    String.utf8EncodeChar (Char.ofNat b.toNat) = [b] := by
  have hlt : b.toNat < 0x80 := UInt8.lt_iff_toNat_lt.mp hb
  have hchar : (Char.ofNat b.toNat).toNat = b.toNat := by
    rw [Char.ofNat, dif_pos (Or.inl (by omega))]
    rfl
  have hval : (Char.ofNat b.toNat).val.toNat = b.toNat := hchar
  rw [String.utf8EncodeChar]
  simp only [hval]
  rw [if_pos (by omega), UInt8.ofNat_toNat]

/-- Bytes that carry the value of a character are its encoding. -/
theorem eq_utf8EncodeChar_of_value {c : Char} {lead : UInt8} {digits : Bytes} {p : Pending}
    (hlead : Pending.ofLead? lead = some p) (hlength : digits.length = p.later + 1)
    (hdigits : ∀ b ∈ digits, 0x80 ≤ b.toNat ∧ b.toNat ≤ 0xBF)
    (hvalue : c.toNat = digits.foldl (fun value b ↦ value * 64 + (b.toNat - 0x80)) p.value)
    (hleast : p.least ≤ c.toNat) (hbound : c.toNat < p.bound) :
    String.utf8EncodeChar c = lead :: digits := by
  have hbyte : ∀ {n : Nat} {b : UInt8}, n = b.toNat → UInt8.ofNat n = b := by
    rintro n b rfl
    exact UInt8.ofNat_toNat
  have hval : c.val.toNat = c.toNat := rfl
  rw [String.utf8EncodeChar]
  simp only [hval]
  rcases ofLead?_eq_some_cases hlead with
    ⟨hlater, hfirst, hlow, hhigh⟩ | ⟨hlater, hfirst, hlow, hhigh⟩ |
      ⟨hlater, hfirst, hlow, hhigh⟩
  · obtain ⟨b₁, rfl⟩ := List.length_eq_one_iff.mp (hlength.trans (by omega))
    have h₁ := hdigits b₁ (by simp)
    simp only [List.foldl_cons, List.foldl_nil] at hvalue
    rw [if_neg (by omega), if_pos (by omega), hbyte (b := lead) (by omega),
      hbyte (b := b₁) (by omega)]
  · obtain ⟨b₁, b₂, rfl⟩ := List.length_eq_two.mp (hlength.trans (by omega))
    have h₁ := hdigits b₁ (by simp)
    have h₂ := hdigits b₂ (by simp)
    simp only [List.foldl_cons, List.foldl_nil] at hvalue
    rw [if_neg (by omega), if_neg (by omega), if_pos (by omega), hbyte (b := lead) (by omega),
      hbyte (b := b₁) (by omega), hbyte (b := b₂) (by omega)]
  · obtain ⟨b₁, b₂, b₃, rfl⟩ := List.length_eq_three.mp (hlength.trans (by omega))
    have h₁ := hdigits b₁ (by simp)
    have h₂ := hdigits b₂ (by simp)
    have h₃ := hdigits b₃ (by simp)
    simp only [List.foldl_cons, List.foldl_nil] at hvalue
    rw [if_neg (by omega), if_neg (by omega), if_neg (by omega), hbyte (b := lead) (by omega),
      hbyte (b := b₁) (by omega), hbyte (b := b₂) (by omega), hbyte (b := b₃) (by omega)]

/-- A first character that does not stand for anything else is there as it is encoded. -/
theorem eq_append_of_decodeFrom_eq_cons {bytes : Bytes} {c : Char} {rest : List Char}
    (hc : c ≠ replacement) (h : decodeFrom none bytes = c :: rest) :
    ∃ tail, bytes = String.utf8EncodeChar c ++ tail := by
  cases bytes with
  | nil => cases h
  | cons b bytes =>
    have hopening : step none b = opening b := rfl
    rw [decodeFrom, hopening] at h
    by_cases hb : b < 0x80
    · rw [opening_of_lt hb] at h
      obtain ⟨rfl, -⟩ := List.cons.inj h
      exact ⟨bytes, by rw [utf8EncodeChar_ofNat hb, List.singleton_append]⟩
    · rw [opening, if_neg hb] at h
      split at h
      · next p hlead =>
        have hp := Pending.isSound_of_ofLead? hlead
        obtain ⟨d, others, hfirst, hbounds⟩ := decodeFrom_some_eq_cons hp bytes
        obtain ⟨rfl, -⟩ := List.cons.inj (h.symm.trans hfirst)
        obtain ⟨hleast, hbound⟩ := hbounds.resolve_left hc
        obtain ⟨digits, tail, rfl, hlength, hdigits, hvalue⟩ :=
          exists_eq_append_of_decodeFrom_some hp hc h
        refine ⟨tail, ?_⟩
        rw [eq_utf8EncodeChar_of_value hlead hlength hdigits hvalue hleast hbound,
          List.cons_append]
      · obtain ⟨rfl, -⟩ := List.cons.inj h
        exact absurd rfl hc

end Utf8

end CommandScript
