import CommandScript.Proofs.NameFolding
import CommandScript.Proofs.Names
import Mathlib.Algebra.Group.Int.Defs
import Mathlib.Algebra.Group.Nat.Defs
import Mathlib.Tactic.SplitIfs
/-!
# The grammar of names

A name is an ASCII letter or an underscore and behind it at least one letter, digit or underscore
(`IsName`). Whether something stands behind the first character is told from a count in a signed
word of 32 bits, which goes on from its least value behind its greatest. So what is accepted are the
names for which the count comes out positive (`isIdentifier_iff`). These are all names of up to
`2 ^ 31` characters, where the count is exact; the next longer ones are refused.
-/

set_option autoImplicit false
set_option relaxedAutoImplicit false

namespace CommandScript

/-! ### The grammar -/

def IsAsciiLetter (c : Char) : Prop := 'a' ≤ c ∧ c ≤ 'z' ∨ 'A' ≤ c ∧ c ≤ 'Z'

def IsAsciiDigit (c : Char) : Prop := '0' ≤ c ∧ c ≤ '9'

/-- A letter or an underscore. -/
def IsNameLead (c : Char) : Prop := IsAsciiLetter c ∨ c = '_'

/-- A letter or an underscore, and behind it letters, digits and underscores, at least one. -/
def IsName (text : String) : Prop :=
  ∃ lead rest, text.toList = lead :: rest ∧ IsNameLead lead ∧ rest ≠ [] ∧
    ∀ c ∈ rest, IsNameLead c ∨ IsAsciiDigit c

/-- A letter or an underscore alone. -/
def IsLoneLead (text : String) : Prop := ∃ lead, text.toList = [lead] ∧ IsNameLead lead

theorem isNameStart_iff {c : Char} : isNameStart c = true ↔ IsNameLead c := by
  have hletter : IsAsciiLetter c ↔
      0x61 ≤ c.toNat ∧ c.toNat ≤ 0x7A ∨ 0x41 ≤ c.toNat ∧ c.toNat ≤ 0x5A := Iff.rfl
  have hunderscore : c = '_' ↔ c.toNat = 0x5F := (Char.toNat_inj (d := '_')).symm
  rw [isNameStart_iff_toNat, IsNameLead, hletter, hunderscore, or_assoc]
  exact or_left_comm

theorem isNameChar_iff {c : Char} : isNameChar c = true ↔ IsNameLead c ∨ IsAsciiDigit c := by
  rw [isNameChar_iff_toNat, isNameStart_iff]
  rfl

/-! ### The count -/

/-- A number of characters comes out positive when they are counted in a signed word of 32 bits. -/
def CountsPositive (number : Nat) : Prop := 0 < number % 2 ^ 32 ∧ number % 2 ^ 32 < 2 ^ 31

instance (number : Nat) : Decidable (CountsPositive number) :=
  inferInstanceAs (Decidable (_ ∧ _))

theorem toInt_ofNat_eq (number : Nat) : (Int32.ofNat number).toInt =
    if number % 2 ^ 32 < 2 ^ 31 then ((number % 2 ^ 32 : Nat) : Int)
    else ((number % 2 ^ 32 : Nat) : Int) - 2 ^ 32 := by
  have hsize : Int32.size = 2 ^ 32 := rfl
  rw [Int32.toInt_ofNat', hsize, Int.bmod_def]
  split_ifs <;> omega

theorem zero_lt_ofNat_iff {number : Nat} : 0 < Int32.ofNat number ↔ CountsPositive number := by
  rw [Int32.lt_iff_toInt_lt, toInt_ofNat_eq, Int32.toInt_zero, CountsPositive]
  split_ifs <;> omega

/-- The count is exact below `2 ^ 31`, and only there. -/
theorem toInt_ofNat_eq_self_iff {number : Nat} :
    (Int32.ofNat number).toInt = number ↔ number < 2 ^ 31 := by
  rw [toInt_ofNat_eq]
  split_ifs <;> omega

theorem countsPositive_of_lt {number : Nat} (hpos : 0 < number) (hlt : number < 2 ^ 31) :
    CountsPositive number := by
  unfold CountsPositive
  omega

/-! ### What is accepted -/

section Names

variable {text : String} {lead : Char} {rest : List Char}

theorem length_sub_one_of_toList (htext : text.toList = lead :: rest) :
    text.length - 1 = rest.length := by
  rw [← String.length_toList, htext, List.length_cons, Nat.add_sub_cancel]

theorem isName_iff (htext : text.toList = lead :: rest) :
    IsName text ↔ IsNameLead lead ∧ rest ≠ [] ∧ ∀ c ∈ rest, IsNameLead c ∨ IsAsciiDigit c := by
  rw [IsName, htext]
  constructor
  · rintro ⟨_, _, heq, hname⟩
    obtain ⟨rfl, rfl⟩ := List.cons.inj heq
    exact hname
  · exact fun hname ↦ ⟨lead, rest, rfl, hname⟩

theorem isIdentifier_iff :
    isIdentifier text = true ↔ IsName text ∧ CountsPositive (text.length - 1) := by
  rw [isIdentifier]
  cases htext : text.toList with
  | nil =>
    refine iff_of_false Bool.false_ne_true ?_
    rintro ⟨⟨lead, rest, hcons, -⟩, -⟩
    rw [htext] at hcons
    cases hcons
  | cons lead rest =>
    have hne : CountsPositive rest.length → rest ≠ [] := by
      rintro hpositive rfl
      exact absurd hpositive (by decide)
    simp only [isName_iff htext, length_sub_one_of_toList htext, Bool.and_eq_true,
      Option.any_eq_true, decide_eq_true_eq, countNameChars_eq_some_iff, Int32.zero_add,
      isNameStart_iff, isNameChar_iff]
    constructor
    · rintro ⟨hlead, total, ⟨hrest, rfl⟩, hpositive⟩
      have hcount := zero_lt_ofNat_iff.mp hpositive
      exact ⟨⟨hlead, hne hcount, hrest⟩, hcount⟩
    · rintro ⟨⟨hlead, -, hrest⟩, hcount⟩
      exact ⟨hlead, _, ⟨hrest, rfl⟩, zero_lt_ofNat_iff.mpr hcount⟩

/-- The count is positive for names of up to `2 ^ 31` characters. -/
theorem IsName.countsPositive (h : IsName text) (hlength : text.length ≤ 2 ^ 31) :
    CountsPositive (text.length - 1) := by
  obtain ⟨lead, rest, htext, -, hrest, -⟩ := h
  have hpos : 0 < rest.length := List.length_pos_iff.mpr hrest
  have hrestLength := length_sub_one_of_toList htext
  exact countsPositive_of_lt (by omega) (by omega)

theorem NamePolicy.accepts_iff {policy : NamePolicy} : policy.accepts text = true ↔
    isIdentifier text = true ∨ policy.allowSingleChar = true ∧ IsLoneLead text := by
  rw [accepts, Bool.or_eq_true, Bool.and_eq_true, IsLoneLead]
  refine or_congr_right (and_congr_right fun _ ↦ ?_)
  rcases text.toList with - | ⟨c, - | ⟨d, cs⟩⟩
  · simp
  · simp [isNameStart_iff]
  · simp

/-- The characters behind the first are counted exactly in texts of up to `2 ^ 31` characters, and
only in these. -/
theorem toInt_countNameChars_iff {total : Int32}
    (h : countNameChars 0 text.toList.tail = some total) :
    total.toInt = (text.length - 1 : Nat) ↔ text.length ≤ 2 ^ 31 := by
  obtain ⟨-, rfl⟩ := countNameChars_eq_some_iff.mp h
  rw [Int32.zero_add, List.length_tail, String.length_toList, toInt_ofNat_eq_self_iff]
  omega

end Names

/-- What is accepted are the names for which the count comes out positive and, where the policy lets
them through, lone letters and underscores. Up to `2 ^ 31` characters, where the count is exact, no
name is refused, so the check decides the grammar there. -/
theorem accepts_iff_grammar (policy : NamePolicy) (text : String) :
    (isIdentifier text = true ↔ IsName text ∧ CountsPositive (text.length - 1)) ∧
      (policy.accepts text = true ↔
        isIdentifier text = true ∨ policy.allowSingleChar = true ∧ IsLoneLead text) ∧
      (∀ total, countNameChars 0 text.toList.tail = some total →
        (total.toInt = (text.length - 1 : Nat) ↔ text.length ≤ 2 ^ 31)) ∧
      (text.length ≤ 2 ^ 31 →
        (isIdentifier text = true ↔ IsName text) ∧
          (policy.accepts text = true ↔
            IsName text ∨ policy.allowSingleChar = true ∧ IsLoneLead text)) := by
  refine ⟨isIdentifier_iff, NamePolicy.accepts_iff, fun _ ↦ toInt_countNameChars_iff,
    fun hlength ↦ ?_⟩
  have hgrammar : isIdentifier text = true ↔ IsName text :=
    isIdentifier_iff.trans (and_iff_left_of_imp (·.countsPositive hlength))
  exact ⟨hgrammar, NamePolicy.accepts_iff.trans (or_congr_left hgrammar)⟩

theorem accepts_iff_grammar_underscores :
    "__".length ≤ 2 ^ 31 ∧ IsName "__" ∧ NamePolicy.strict.accepts "__" = true := by
  have hlength : "__".length ≤ 2 ^ 31 := by decide
  obtain ⟨-, -, -, hdecides⟩ := accepts_iff_grammar .strict "__"
  have hname : IsName "__" := (hdecides hlength).1.mp rfl
  exact ⟨hlength, hname, (hdecides hlength).2.mpr (.inl hname)⟩

/-! ### Names that are too long -/

/-- The name of so many letters. -/
def letters (number : Nat) : String := String.ofList (List.replicate number 'a')

theorem length_letters (number : Nat) : (letters number).length = number := by
  rw [letters, String.length_ofList, List.length_replicate]

theorem isName_letters {number : Nat} (h : 2 ≤ number) : IsName (letters number) := by
  obtain ⟨rest, rfl⟩ := Nat.exists_eq_add_of_le' h
  have hletter : IsNameLead 'a' := .inl (.inl (by decide))
  have htext : (letters (rest + 2)).toList = 'a' :: List.replicate (rest + 1) 'a' :=
    String.toList_ofList
  exact (isName_iff htext).mpr ⟨hletter, List.cons_ne_nil _ _,
    fun c hc ↦ .inl ((List.eq_of_mem_replicate hc) ▸ hletter)⟩

/-- The shortest names that are refused have one character more than are counted right: the count of
those behind the first is the least number of its word. -/
theorem not_isIdentifier_letters :
    IsName (letters (2 ^ 31 + 1)) ∧ isIdentifier (letters (2 ^ 31 + 1)) = false := by
  refine ⟨isName_letters (by decide), Bool.eq_false_iff.mpr fun h ↦ ?_⟩
  have hcount := (isIdentifier_iff.mp h).2
  rw [length_letters] at hcount
  exact absurd hcount (by decide)

end CommandScript
