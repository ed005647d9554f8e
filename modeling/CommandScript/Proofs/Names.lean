import CommandScript.Name
import CommandScript.Text.Blank
import Mathlib.Tactic.SplitIfs
/-!
# Characters of names

What a policy accepts is made of name characters only and starts with one that is no digit. Name
characters are ASCII, and none of them is white space, a dash, a quote mark or a line's end, so a
name passes through every reader of the program as it is.
-/

set_option autoImplicit false
set_option relaxedAutoImplicit false

namespace CommandScript

theorem isNameChar_of_isNameStart {c : Char} (hc : isNameStart c = true) : isNameChar c = true := by
  simp only [isNameStart, isNameChar, Char.isAlphanum, Bool.or_eq_true] at hc ⊢
  rcases hc with halpha | hunderscore
  · exact Or.inl (Or.inl halpha)
  · exact Or.inr hunderscore

/-- Letters of either case are ASCII letters. -/
theorem toNat_of_isAlpha {c : Char} (hc : c.isAlpha = true) :
    0x41 ≤ c.toNat ∧ c.toNat ≤ 0x5A ∨ 0x61 ≤ c.toNat ∧ c.toNat ≤ 0x7A := by
  rcases (Bool.or_eq_true c.isUpper c.isLower).mp hc with hupper | hlower
  · have hbounds : 'A'.val ≤ c.val ∧ c.val ≤ 'Z'.val := of_decide_eq_true hupper
    exact Or.inl hbounds
  · have hbounds := (Bool.and_eq_true _ _).mp hlower
    exact Or.inr ⟨of_decide_eq_true hbounds.1, of_decide_eq_true hbounds.2⟩

/-- Name characters lie between the digits and the small letters. -/
theorem toNat_of_isNameChar {c : Char} (hc : isNameChar c = true) :
    0x30 ≤ c.toNat ∧ c.toNat ≤ 0x7A := by
  simp only [isNameChar, Char.isAlphanum, Bool.or_eq_true, beq_iff_eq] at hc
  rcases hc with (halpha | hdigit) | rfl
  · have hletter := toNat_of_isAlpha halpha
    omega
  · obtain ⟨hlow, hhigh⟩ := Char.isDigit_iff_toNat.mp hdigit
    exact ⟨hlow, Nat.le_trans hhigh (by decide)⟩
  · decide

theorem isBlank_of_isNameChar {c : Char} (hc : isNameChar c = true) : isBlank c = false := by
  obtain ⟨hlow, hhigh⟩ := toNat_of_isNameChar hc
  simp only [isBlank, whiteSpaceRanges, List.any_cons, List.any_nil, Bool.or_false,
    Bool.or_eq_false_iff, Bool.and_eq_false_iff, decide_eq_false_iff_not]
  omega

/-- What is counted are name characters only, each once. The count has the width of its word. -/
theorem countNameChars_eq_some_iff {cs : List Char} {count total : Int32} :
    countNameChars count cs = some total ↔
      (∀ c ∈ cs, isNameChar c = true) ∧ count + Int32.ofNat cs.length = total := by
  induction cs generalizing count with
  | nil => simp [countNameChars]
  | cons c cs ih =>
    have hcount : count + Int32.ofNat (c :: cs).length = count + 1 + Int32.ofNat cs.length := by
      rw [List.length_cons, Nat.add_comm, Int32.ofNat_add, ← Int32.add_assoc]
      rfl
    rw [countNameChars, hcount, List.forall_mem_cons]
    split_ifs with hc
    · rw [ih, and_iff_right hc]
    · simp [hc]

namespace NamePolicy

variable {policy : NamePolicy} {name : String}

/-- A name starts with a letter or an underscore, and goes on with name characters. -/
theorem toList_of_accepts (h : policy.accepts name = true) :
    ∃ c cs, name.toList = c :: cs ∧ isNameStart c = true ∧ ∀ d ∈ cs, isNameChar d = true := by
  rw [accepts, Bool.or_eq_true, Bool.and_eq_true] at h
  rcases h with hlong | ⟨-, hsingle⟩
  · rw [isIdentifier] at hlong
    split at hlong
    · exact absurd hlong Bool.false_ne_true
    · next c cs hname =>
      rw [Bool.and_eq_true, Option.any_eq_true] at hlong
      obtain ⟨hstart, count, hcount, -⟩ := hlong
      exact ⟨c, cs, hname, hstart, (countNameChars_eq_some_iff.mp hcount).1⟩
  · split at hsingle
    · next c hname =>
      exact ⟨c, [], hname, hsingle, fun d hd ↦ absurd hd List.not_mem_nil⟩
    · exact absurd hsingle Bool.false_ne_true

theorem isNameChar_of_accepts (h : policy.accepts name = true) :
    ∀ c ∈ name.toList, isNameChar c = true := by
  obtain ⟨c, cs, hname, hstart, hrest⟩ := toList_of_accepts h
  intro d hd
  rw [hname] at hd
  rcases List.mem_cons.mp hd with rfl | hd
  · exact isNameChar_of_isNameStart hstart
  · exact hrest d hd

theorem toList_ne_nil_of_accepts (h : policy.accepts name = true) : name.toList ≠ [] := by
  obtain ⟨c, cs, hname, -⟩ := toList_of_accepts h
  simp [hname]

end NamePolicy

end CommandScript
