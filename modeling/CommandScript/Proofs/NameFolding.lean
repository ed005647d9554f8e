import CommandScript.Name
import Mathlib.Tactic.SplitIfs
/-!
# Folded names

Folding moves the capital letters of ASCII and nothing else. They may stand in a name where the
small ones may, so a text is accepted exactly if its folded form is
(`NamePolicy.accepts_canonicalName`), and what is folded stays as it is
(`canonicalName_canonicalName`).
-/

set_option autoImplicit false
set_option relaxedAutoImplicit false

namespace CommandScript

/-! ### Characters by their numbers -/

theorem toNat_toLower (c : Char) :
    c.toLower.toNat = if 0x41 ≤ c.toNat ∧ c.toNat ≤ 0x5A then c.toNat + 32 else c.toNat := by
  have hupper : (c.val ≥ 'A'.val ∧ c.val ≤ 'Z'.val) ↔ 0x41 ≤ c.toNat ∧ c.toNat ≤ 0x5A := by
    simp [UInt32.le_iff_toNat_le]
  unfold Char.toLower
  split_ifs with hval hc hc
  · have hsum : (c.val + 32).toNat = (c.toNat + 32) % 2 ^ 32 := UInt32.toNat_add c.val 32
    exact hsum.trans (Nat.mod_eq_of_lt (by omega))
  · exact absurd (hupper.mp hval) hc
  · exact absurd (hupper.mpr hc) hval
  · rfl

theorem isNameStart_iff_toNat {c : Char} : isNameStart c = true ↔
    0x41 ≤ c.toNat ∧ c.toNat ≤ 0x5A ∨ 0x61 ≤ c.toNat ∧ c.toNat ≤ 0x7A ∨ c.toNat = 0x5F := by
  have halpha : c.isAlpha = (decide (c.val ≥ 'A'.val ∧ c.val ≤ 'Z'.val) ||
      decide (c.val ≥ 'a'.val) && decide (c.val ≤ 'z'.val)) := rfl
  have hunderscore : c = '_' ↔ c.toNat = 0x5F := (Char.toNat_inj (d := '_')).symm
  simp [isNameStart, halpha, hunderscore, UInt32.le_iff_toNat_le, or_assoc]

theorem isNameChar_iff_toNat {c : Char} : isNameChar c = true ↔
    isNameStart c = true ∨ 0x30 ≤ c.toNat ∧ c.toNat ≤ 0x39 := by
  simp [isNameChar, isNameStart, Char.isAlphanum, Char.isDigit, UInt32.le_iff_toNat_le,
    or_right_comm]

theorem isNameStart_toLower (c : Char) : isNameStart c.toLower = isNameStart c := by
  rw [Bool.eq_iff_iff, isNameStart_iff_toNat, isNameStart_iff_toNat, toNat_toLower]
  split_ifs <;> omega

theorem isNameChar_toLower (c : Char) : isNameChar c.toLower = isNameChar c := by
  have hdigit : 0x30 ≤ c.toLower.toNat ∧ c.toLower.toNat ≤ 0x39 ↔
      0x30 ≤ c.toNat ∧ c.toNat ≤ 0x39 := by
    rw [toNat_toLower]
    split_ifs <;> omega
  rw [Bool.eq_iff_iff, isNameChar_iff_toNat, isNameChar_iff_toNat, isNameStart_toLower, hdigit]

/-! ### Names -/

theorem countNameChars_map_toLower (cs : List Char) (count : Int32) :
    countNameChars count (cs.map Char.toLower) = countNameChars count cs := by
  induction cs generalizing count with
  | nil => rfl
  | cons c cs ih => rw [List.map_cons, countNameChars, countNameChars, isNameChar_toLower, ih]

theorem isIdentifier_canonicalName (text : String) :
    isIdentifier (canonicalName text) = isIdentifier text := by
  rw [isIdentifier, isIdentifier, canonicalName, String.toList_ofList]
  cases text.toList with
  | nil => rfl
  | cons c cs => simp only [List.map_cons, isNameStart_toLower, countNameChars_map_toLower]

@[simp]
theorem canonicalName_canonicalName (text : String) :
    canonicalName (canonicalName text) = canonicalName text := by
  have htwice : Char.toLower ∘ Char.toLower = Char.toLower := by
    refine funext fun c ↦ Char.toNat_inj.mp ?_
    rw [Function.comp_apply, toNat_toLower, toNat_toLower]
    split_ifs <;> omega
  rw [canonicalName, canonicalName, String.toList_ofList, List.map_map, htwice]

@[simp]
theorem NamePolicy.accepts_canonicalName (policy : NamePolicy) (name : String) :
    policy.accepts (canonicalName name) = policy.accepts name := by
  rw [accepts, accepts, isIdentifier_canonicalName, canonicalName, String.toList_ofList]
  rcases name.toList with _ | ⟨c, _ | ⟨d, cs⟩⟩
  · rfl
  · simp only [List.map_cons, List.map_nil, isNameStart_toLower]
  · rfl

end CommandScript
