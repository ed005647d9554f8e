import CommandScript.Proofs.JsonReading
import Mathlib.Data.List.TakeWhile
/-!
# The grammar of JSON

Which texts are JSON and what they denote (`Json.IsText`): the grammar as a relation, with blanks
wherever they may stand, numbers in all their forms, every way of escaping a character, and `null`.
The text of a written value denotes that value (`denotes_renderChars`). It denotes nothing else
(`isText_render_iff`), since from its first character on there is only one way to go
(`eq_of_denotes`): a string ends at the first quote mark that is not escaped, a number at the first
character that is foreign to numbers, and a sequence at the character that closes it.
-/

set_option autoImplicit false
set_option relaxedAutoImplicit false

namespace CommandScript

/-- Two runs of items of one kind are the same if something else stands behind each. -/
theorem append_inj_of_all {α : Type} {p : α → Bool} {run other rest later : List α}
    (hrun : ∀ item ∈ run, p item = true) (hother : ∀ item ∈ other, p item = true)
    (hrest : ∀ item ∈ rest.head?, p item = false) (hlater : ∀ item ∈ later.head?, p item = false)
    (h : run ++ rest = other ++ later) : run = other ∧ rest = later := by
  have htake : ∀ {run rest : List α}, (∀ item ∈ run, p item = true) →
      (∀ item ∈ rest.head?, p item = false) → (run ++ rest).takeWhile p = run := by
    intro run rest hrun hrest
    rw [List.takeWhile_append_of_pos hrun]
    cases rest with
    | nil => rw [List.takeWhile_nil, List.append_nil]
    | cons item rest => rw [List.takeWhile_cons_of_neg (by simp [hrest item rfl]), List.append_nil]
  have heq : run = other := by rw [← htake hrun hrest, h, htake hother hlater]
  subst heq
  exact ⟨rfl, List.append_cancel_left h⟩

namespace Json

/-! ### Texts -/

/-- What a JSON text denotes. The numeral of a number is kept as it is spelled. -/
inductive Datum
  | null
  | boolean (value : Bool)
  | number (numeral : List Char)
  | string (text : String)
  | array (items : List Datum)
  | object (members : List (String × Datum))

def IsBlank (text : List Char) : Prop := ∀ c ∈ text, isSpace c = true

def IsDigits (text : List Char) : Prop := text ≠ [] ∧ ∀ c ∈ text, c.isDigit = true

/-- A numeral: a sign, a whole part without needless zeros, a fraction and an exponent, of which
only the whole part must be there. -/
structure IsNumeral (numeral : List Char) : Prop where
  parts : ∃ sign whole fraction exponent, numeral = sign ++ (whole ++ (fraction ++ exponent)) ∧
    (sign = [] ∨ sign = ['-']) ∧
    (IsDigits whole ∧ (whole.head? = some '0' → whole = ['0'])) ∧
    (fraction = [] ∨ ∃ digits, IsDigits digits ∧ fraction = '.' :: digits) ∧
    (exponent = [] ∨ ∃ e sign digits, (e = 'e' ∨ e = 'E') ∧
      (sign = [] ∨ sign = ['+'] ∨ sign = ['-']) ∧ IsDigits digits ∧
        exponent = e :: (sign ++ digits))

/-- A spelling of one code of a string: the character itself, or an escape. -/
inductive SpellsCode : List Char → Nat → Prop
  | plain {c : Char} (hquote : c ≠ '"') (hbackslash : c ≠ '\\') (hc : 0x20 ≤ c.toNat) :
    SpellsCode [c] c.toNat
  | letter {letter c : Char} (hletter : unescape? letter = some c) :
    SpellsCode ['\\', letter] c.toNat
  | digits {first second third fourth : Char} {code : Nat}
    (hcode : hexCode? [first, second, third, fourth] = some code) :
    SpellsCode ['\\', 'u', first, second, third, fourth] code

/-- A spelling of a string, between its quote marks. -/
def SpellsString (spelling : List Char) (text : String) : Prop :=
  ∃ parts : List (List Char × Nat), spelling = parts.flatMap Prod.fst ∧
    (∀ part ∈ parts, SpellsCode part.1 part.2) ∧ ofCodes? (parts.map Prod.snd) = some text.toList

/-- A spelling with blanks around it. -/
def IsPadded (spelling text : List Char) : Prop :=
  ∃ before after, IsBlank before ∧ IsBlank after ∧ text = before ++ (spelling ++ after)

/-- Texts with commas between them. Of no texts there are only blanks. -/
def IsSequence (texts : List (List Char)) (text : List Char) : Prop :=
  texts = [] ∧ IsBlank text ∨ texts ≠ [] ∧ text = [','].intercalate texts

/-- An item of an array: its text with the blanks around it, its spelling and what it denotes. -/
structure Item where
  text : List Char
  spelling : List Char
  datum : Datum

/-- A member of an object: its text with its key and all blanks, its key, the spelling of its value
and what that denotes. -/
structure Member where
  text : List Char
  key : String
  spelling : List Char
  datum : Datum

/-- The key between quote marks, a colon and the spelling of the value, with blanks anywhere. -/
def Member.IsSpelled (member : Member) : Prop :=
  ∃ before key between padded, IsBlank before ∧ SpellsString key member.key ∧ IsBlank between ∧
    IsPadded member.spelling padded ∧
      member.text = before ++ '"' :: (key ++ '"' :: (between ++ ':' :: padded))

/-- A spelling of a value, without blanks around it. -/
inductive Denotes : List Char → Datum → Prop
  | null : Denotes ['n', 'u', 'l', 'l'] .null
  | isTrue : Denotes ['t', 'r', 'u', 'e'] (.boolean true)
  | isFalse : Denotes ['f', 'a', 'l', 's', 'e'] (.boolean false)
  | number {numeral : List Char} (hnumeral : IsNumeral numeral) : Denotes numeral (.number numeral)
  | string {spelling : List Char} {text : String} (htext : SpellsString spelling text) :
    Denotes ('"' :: (spelling ++ ['"'])) (.string text)
  | array {items : List Item} {text : List Char} (htext : IsSequence (items.map Item.text) text)
    (hpadded : ∀ item ∈ items, IsPadded item.spelling item.text)
    (hitems : ∀ item ∈ items, Denotes item.spelling item.datum) :
    Denotes ('[' :: (text ++ [']'])) (.array (items.map Item.datum))
  | object {members : List Member} {text : List Char}
    (htext : IsSequence (members.map Member.text) text)
    (hspelled : ∀ member ∈ members, member.IsSpelled)
    (hmembers : ∀ member ∈ members, Denotes member.spelling member.datum) :
    Denotes ('{' :: (text ++ ['}'])) (.object (members.map fun member ↦ (member.key, member.datum)))

/-- A JSON text and what it denotes. -/
def IsText (text : List Char) (datum : Datum) : Prop :=
  ∃ spelling, IsPadded spelling text ∧ Denotes spelling datum

/-! ### Written values -/

mutual

/-- The value as a datum. -/
def datum : Json → Datum
  | string text => .string text
  | number value => .number (Nat.toDigits 10 value)
  | boolean value => .boolean value
  | array items => .array (itemData items)
  | object members => .object (memberData members)

def itemData : List Json → List Datum
  | [] => []
  | item :: items => item.datum :: itemData items

def memberData : List (String × Json) → List (String × Datum)
  | [] => []
  | (key, value) :: members => (key, value.datum) :: memberData members

end

theorem itemData_eq_map (items : List Json) : itemData items = items.map datum := by
  induction items with
  | nil => rfl
  | cons item items ih => rw [itemData, ih, List.map_cons]

theorem memberData_eq_map (members : List (String × Json)) :
    memberData members = members.map fun member ↦ (member.1, member.2.datum) := by
  induction members with
  | nil => rfl
  | cons member members ih => rw [memberData, ih, List.map_cons]

theorem isBlank_nil : IsBlank [] := fun _ h ↦ nomatch h

theorem isPadded_self (spelling : List Char) : IsPadded spelling spelling :=
  ⟨[], [], isBlank_nil, isBlank_nil, by rw [List.nil_append, List.append_nil]⟩

theorem isSequence_intercalate (texts : List (List Char)) :
    IsSequence texts ([','].intercalate texts) := by
  by_cases htexts : texts = []
  · subst htexts
    exact Or.inl ⟨rfl, isBlank_nil⟩
  · exact Or.inr ⟨htexts, rfl⟩

theorem isNumeral_toDigits (n : Nat) : IsNumeral (Nat.toDigits 10 n) := by
  have hdigits : IsDigits (Nat.toDigits 10 n) :=
    ⟨Nat.toDigits_ne_nil, fun c hc ↦ Nat.isDigit_of_mem_toDigits (by decide) (by decide) hc⟩
  have hzero : (Nat.toDigits 10 n).head? = some '0' → Nat.toDigits 10 n = ['0'] := by
    intro h
    rw [eq_zero_of_head?_toDigits h]
    rfl
  exact ⟨[], Nat.toDigits 10 n, [], [], by simp, Or.inl rfl, ⟨hdigits, hzero⟩, Or.inl rfl,
    Or.inl rfl⟩

theorem spellsCode_escape (c : Char) : SpellsCode (escape c) c.toNat := by
  rw [escape]
  split_ifs with hquote hbackslash hn hr ht hb hf hlow
  · subst hquote
    exact .letter rfl
  · subst hbackslash
    exact .letter rfl
  · subst hn
    exact .letter rfl
  · subst hr
    exact .letter rfl
  · subst ht
    exact .letter rfl
  · subst hb
    exact .letter rfl
  · subst hf
    exact .letter rfl
  · exact .digits (hexCode?_of_lt hlow)
  · exact .plain hquote hbackslash (Nat.le_of_not_lt hlow)

theorem spellsString_escape (text : String) : SpellsString (text.toList.flatMap escape) text := by
  refine ⟨text.toList.map fun c ↦ (escape c, c.toNat), ?_, ?_, ?_⟩
  · rw [List.flatMap_map]
  · intro part hpart
    obtain ⟨c, -, rfl⟩ := List.mem_map.mp hpart
    exact spellsCode_escape c
  · rw [List.map_map]
    exact ofCodes?_map_toNat text.toList

/-- The text of a written value denotes that value. -/
theorem denotes_renderChars (value : Json) : Denotes value.renderChars value.datum := by
  induction value using inductionOn with
  | string text =>
    rw [renderChars, datum]
    exact .string (spellsString_escape text)
  | number n =>
    rw [renderChars, datum]
    exact .number (isNumeral_toDigits n)
  | boolean truth => cases truth <;> constructor
  | array items ih =>
    rw [renderChars, datum, itemData_eq_map, renderItems_eq_intercalate]
    -- Each item is spelled as it is written, with no blanks around it.
    let item (value : Json) : Item := ⟨value.renderChars, value.renderChars, value.datum⟩
    have harray := @Denotes.array (items.map item) ([','].intercalate (items.map renderChars))
    rw [List.map_map, List.map_map] at harray
    refine harray (isSequence_intercalate _) ?_ ?_
    · intro part hpart
      obtain ⟨value, -, rfl⟩ := List.mem_map.mp hpart
      exact isPadded_self _
    · intro part hpart
      obtain ⟨value, hvalue, rfl⟩ := List.mem_map.mp hpart
      exact ih value hvalue
  | object members ih =>
    rw [renderChars, datum, memberData_eq_map, renderMembers_eq_intercalate]
    let part (member : String × Json) : Member :=
      ⟨memberChars member, member.1, member.2.renderChars, member.2.datum⟩
    have hobject := @Denotes.object (members.map part)
      ([','].intercalate (members.map memberChars))
    rw [List.map_map, List.map_map] at hobject
    refine hobject (isSequence_intercalate _) ?_ ?_
    · intro other hother
      obtain ⟨member, -, rfl⟩ := List.mem_map.mp hother
      exact ⟨[], member.1.toList.flatMap escape, [], _, isBlank_nil, spellsString_escape member.1,
        isBlank_nil, isPadded_self _, by simp [part, memberChars, quote]⟩
    · intro other hother
      obtain ⟨member, hmember, rfl⟩ := List.mem_map.mp hother
      exact ih member hmember

/-! ### One way to read a text -/

/-- The characters with which a spelling of a datum may start. -/
def Datum.opens : Datum → Char → Bool
  | null, c => c = 'n'
  | boolean true, c => c = 't'
  | boolean false, c => c = 'f'
  | number _, c => c = '-' || c.isDigit
  | string _, c => c = '"'
  | array _, c => c = '['
  | object _, c => c = '{'

/-- Whether a character can be part of a numeral. -/
def isNumeralChar (c : Char) : Bool :=
  c.isDigit || c = '+' || c = '-' || c = '.' || c = 'e' || c = 'E'

/-- A numeral may end in front of this text. -/
def EndsNumeral (text : List Char) : Prop := ∀ c ∈ text.head?, isNumeralChar c = false

/-- A numeral may end in front of this text, and no blank stands at its start. -/
structure IsStop (text : List Char) : Prop where
  endsNumeral : EndsNumeral text
  isSpace : ∀ c ∈ text.head?, isSpace c = false

section Reading

variable {text spelling rest later : List Char} {found : Datum} {c : Char}

theorem isNumeralChar_of_isDigit (hc : c.isDigit = true) : isNumeralChar c = true := by
  simp [isNumeralChar, hc]

theorem IsNumeral.isNumeralChar (hnumeral : IsNumeral text) :
    ∀ c ∈ text, isNumeralChar c = true := by
  obtain ⟨sign, whole, fraction, exponent, rfl, hsign, ⟨hwhole, -⟩, hfraction, hexponent⟩ :=
    hnumeral.parts
  have hdigits : ∀ digits, IsDigits digits → ∀ c ∈ digits, Json.isNumeralChar c = true :=
    fun digits hdigits c hc ↦ isNumeralChar_of_isDigit (hdigits.2 c hc)
  intro c hc
  rw [List.mem_append, List.mem_append, List.mem_append] at hc
  rcases hc with hc | hc | hc | hc
  · rcases hsign with rfl | rfl
    · cases hc
    · obtain rfl := List.mem_singleton.mp hc
      decide
  · exact hdigits whole hwhole c hc
  · rcases hfraction with rfl | ⟨digits, hfraction, rfl⟩
    · cases hc
    · rcases List.mem_cons.mp hc with rfl | hc
      · decide
      · exact hdigits digits hfraction c hc
  · rcases hexponent with rfl | ⟨e, sign, digits, he, hsign, hexponent, rfl⟩
    · cases hc
    · rw [List.mem_cons, List.mem_append] at hc
      rcases hc with rfl | hc | hc
      · rcases he with rfl | rfl <;> decide
      · rcases hsign with rfl | rfl | rfl
        · cases hc
        · obtain rfl := List.mem_singleton.mp hc
          decide
        · obtain rfl := List.mem_singleton.mp hc
          decide
      · exact hdigits digits hexponent c hc

theorem Denotes.exists_eq_cons (hfound : Denotes text found) :
    ∃ c rest, text = c :: rest ∧ found.opens c = true := by
  cases hfound with
  | number hnumeral =>
    obtain ⟨sign, whole, fraction, exponent, rfl, hsign, ⟨⟨hne, hdigits⟩, -⟩, -⟩ := hnumeral.parts
    rcases hsign with rfl | rfl
    · obtain ⟨c, digits, rfl⟩ := List.exists_cons_of_ne_nil hne
      exact ⟨c, _, rfl, by simp [Datum.opens, hdigits c List.mem_cons_self]⟩
    · exact ⟨'-', _, rfl, rfl⟩
  | null | isTrue | isFalse | string | array | object => exact ⟨_, _, rfl, rfl⟩

/-- What a text that starts with this character denotes. -/
theorem Denotes.opens (hfound : Denotes text found) (h : c :: rest = text ++ later) :
    found.opens c = true := by
  obtain ⟨d, tail, rfl, hopens⟩ := hfound.exists_eq_cons
  rwa [(List.cons.inj h).1]

theorem ne_of_opens (hopens : found.opens c = true) : isSpace c = false ∧ c ≠ ']' ∧ c ≠ '}' := by
  cases found with
  | number numeral =>
    rcases (Bool.or_eq_true _ _).mp hopens with hminus | hdigit
    · rw [of_decide_eq_true hminus]
      decide
    · exact ⟨isSpace_of_isDigit hdigit, ne_of_isDigit hdigit (by decide),
        ne_of_isDigit hdigit (by decide)⟩
  | boolean truth =>
    cases truth
    · rw [of_decide_eq_true hopens]
      decide
    · rw [of_decide_eq_true hopens]
      decide
  | null | string | array | object =>
    rw [of_decide_eq_true hopens]
    decide

/-- Blanks cannot stand where something else does. -/
theorem IsBlank.eq_nil (hblank : IsBlank text) (hc : isSpace c = false)
    (h : c :: rest = text ++ later) : text = [] := by
  cases text with
  | nil => rfl
  | cons d text =>
    obtain rfl := (List.cons.inj h).1
    rw [hblank c List.mem_cons_self] at hc
    cases hc

/-- Nor do they hide what stands behind them. -/
theorem IsBlank.exists_append_eq_cons {close : Char} (hblank : IsBlank text)
    (hclose : isSpace close = false) (hc : c ≠ close) :
    ∃ d tail, text ++ c :: rest = d :: tail ∧ d ≠ close := by
  cases text with
  | nil => exact ⟨c, rest, rfl, hc⟩
  | cons d text =>
    refine ⟨d, _, rfl, ?_⟩
    rintro rfl
    rw [hblank d List.mem_cons_self] at hclose
    cases hclose

theorem IsBlank.endsNumeral_append (hblank : IsBlank text) (hlater : EndsNumeral later) :
    EndsNumeral (text ++ later) := by
  cases text with
  | nil => exact hlater
  | cons d text =>
    intro c hc
    obtain rfl := Option.some.inj hc
    have hspace := hblank d List.mem_cons_self
    simp only [Json.isSpace, Bool.or_eq_true, decide_eq_true_eq] at hspace
    rcases hspace with ((rfl | rfl) | rfl) | rfl <;> decide

theorem codes?_spelling {code : Nat} (hcode : SpellsCode spelling code) (rest : List Char) :
    codes? (spelling ++ rest) = (codes? rest).map fun read ↦ (code :: read.1, read.2) := by
  cases hcode with
  | plain hquote hbackslash hc => exact codes?_plain hquote hbackslash hc rest
  | letter hletter => exact codes?_short hletter rest
  | digits hcode => exact codes?_hex hcode rest

theorem codes?_spellings {parts : List (List Char × Nat)}
    (hparts : ∀ part ∈ parts, SpellsCode part.1 part.2) (rest : List Char) :
    codes? (parts.flatMap Prod.fst ++ '"' :: rest) = some (parts.map Prod.snd, rest) := by
  induction parts with
  | nil => rw [List.flatMap_nil, List.nil_append, codes?, List.map_nil]
  | cons part parts ih =>
    obtain ⟨hpart, hparts⟩ := List.forall_mem_cons.mp hparts
    rw [List.flatMap_cons, List.append_assoc, codes?_spelling hpart, ih hparts]
    rfl

/-- Every spelling of a string is read as that string. -/
theorem string?_spelling {string : String} (hspelling : SpellsString spelling string)
    (rest : List Char) : string? (spelling ++ '"' :: rest) = some (string, rest) := by
  obtain ⟨parts, rfl, hparts, hcodes⟩ := hspelling
  rw [string?, codes?_spellings hparts]
  simp [hcodes]

theorem eq_of_quote {string other : String} (hspelling : SpellsString spelling other)
    (h : quote string ++ rest = '"' :: (spelling ++ '"' :: later)) :
    other = string ∧ rest = later := by
  rw [quote, List.cons_append, List.append_assoc, List.singleton_append] at h
  have hread := string?_append string rest
  rw [(List.cons.inj h).2, string?_spelling hspelling] at hread
  cases hread
  exact ⟨rfl, rfl⟩

end Reading

section Sequences

variable {α β γ : Type} {render : α → List Char} {text : β → List Char} (value : α → γ)
  (found : β → γ) {close : Char} {items : List α} {parts : List β} {rest later : List Char}

theorem exists_intercalate_eq_cons {item : α} {c : Char} {tail : List Char} (items : List α)
    (hitem : render item = c :: tail) :
    ∃ tail, [','].intercalate ((item :: items).map render) = c :: tail := by
  cases items with
  | nil => exact ⟨tail, by simpa using hitem⟩
  | cons next items =>
    rw [intercalate_map_cons_cons, hitem]
    exact ⟨_, rfl⟩

/-- Two sequences of texts are the same if their items are, one by one. -/
theorem map_eq_of_intercalate (hclose : close ≠ ',') (hitems : items ≠ []) (hparts : parts ≠ [])
    (hstep : ∀ item ∈ items, ∀ part ∈ parts, ∀ c d rest later, (c = ',' ∨ c = close) →
      (d = ',' ∨ d = close) → render item ++ c :: rest = text part ++ d :: later →
        found part = value item ∧ c :: rest = d :: later)
    (h : [','].intercalate (items.map render) ++ close :: rest =
      [','].intercalate (parts.map text) ++ close :: later) :
    parts.map found = items.map value ∧ rest = later := by
  induction items generalizing parts with
  | nil => exact absurd rfl hitems
  | cons item items ih =>
    obtain ⟨part, parts, rfl⟩ := List.exists_cons_of_ne_nil hparts
    have hfirst := hstep item List.mem_cons_self part List.mem_cons_self
    cases items with
    | nil =>
      cases parts with
      | nil =>
        obtain ⟨hfound, hrest⟩ := hfirst close close rest later (Or.inr rfl) (Or.inr rfl)
          (by simpa using h)
        exact ⟨by simp [hfound], (List.cons.inj hrest).2⟩
      | cons other parts =>
        rw [intercalate_map_cons_cons, List.append_assoc, List.cons_append] at h
        obtain ⟨-, hrest⟩ := hfirst close ',' rest _ (Or.inr rfl) (Or.inl rfl) (by simpa using h)
        exact absurd (List.cons.inj hrest).1 hclose
    | cons next items =>
      rw [intercalate_map_cons_cons, List.append_assoc, List.cons_append] at h
      cases parts with
      | nil =>
        obtain ⟨-, hrest⟩ := hfirst ',' close _ later (Or.inl rfl) (Or.inr rfl) (by simpa using h)
        exact absurd (List.cons.inj hrest).1.symm hclose
      | cons other parts =>
        rw [intercalate_map_cons_cons, List.append_assoc, List.cons_append] at h
        obtain ⟨hfound, hrest⟩ := hfirst ',' ',' _ _ (Or.inl rfl) (Or.inl rfl) h
        obtain ⟨hmap, hlater⟩ := ih (List.cons_ne_nil next items) (List.cons_ne_nil other parts)
          (fun item hitem part hpart ↦ hstep item (List.mem_cons_of_mem _ hitem) part
            (List.mem_cons_of_mem _ hpart)) (List.cons.inj hrest).2
        exact ⟨congrArg₂ List.cons hfound hmap, hlater⟩

/-- The same, where there may be no items. -/
theorem map_eq_of_isSequence {whole : List Char} (hclose : close = ']' ∨ close = '}')
    (hstart : ∀ item ∈ items, ∃ c rest, render item = c :: rest ∧ isSpace c = false ∧ c ≠ close)
    (hpart : ∀ part ∈ parts, ∃ c rest, text part = c :: rest ∧ c ≠ close)
    (hstep : ∀ item ∈ items, ∀ part ∈ parts, ∀ c d rest later, (c = ',' ∨ c = close) →
      (d = ',' ∨ d = close) → render item ++ c :: rest = text part ++ d :: later →
        found part = value item ∧ c :: rest = d :: later)
    (hwhole : IsSequence (parts.map text) whole)
    (h : [','].intercalate (items.map render) ++ close :: rest = whole ++ close :: later) :
    parts.map found = items.map value ∧ rest = later := by
  have hspace : close ≠ ',' ∧ isSpace close = false := by rcases hclose with rfl | rfl <;> decide
  rcases hwhole with ⟨hnone, hblank⟩ | ⟨hsome, rfl⟩
  · obtain rfl := List.map_eq_nil_iff.mp hnone
    cases items with
    | nil =>
      have hnil := hblank.eq_nil hspace.2 h
      subst hnil
      exact ⟨rfl, (List.cons.inj h).2⟩
    | cons item items =>
      obtain ⟨c, tail, hitem, hc, hne⟩ := hstart item List.mem_cons_self
      obtain ⟨tail, htail⟩ := exists_intercalate_eq_cons items hitem
      rw [htail, List.cons_append] at h
      have hnil := hblank.eq_nil hc h
      subst hnil
      exact absurd (List.cons.inj h).1 hne
  · have hparts : parts ≠ [] := fun hnil ↦ hsome (by rw [hnil, List.map_nil])
    by_cases hitems : items = []
    · subst hitems
      obtain ⟨part, parts, rfl⟩ := List.exists_cons_of_ne_nil hparts
      obtain ⟨c, tail, hpart, hne⟩ := hpart part List.mem_cons_self
      obtain ⟨tail, htail⟩ := exists_intercalate_eq_cons parts hpart
      rw [htail] at h
      exact absurd (List.cons.inj h).1.symm hne
    · exact map_eq_of_intercalate value found hspace.1 hitems hparts hstep h

end Sequences

section Values

variable {text spelling rest later : List Char} {found : Datum} {value : Json}

/-- Whatever a text denotes that starts as the text of a value does: it is that value, and it ends
where the value's text ends. -/
def IsForced (value : Json) : Prop :=
  ∀ ⦃text rest later : List Char⦄ ⦃found : Datum⦄, Denotes text found → EndsNumeral rest →
    EndsNumeral later → value.renderChars ++ rest = text ++ later →
      found = value.datum ∧ rest = later

theorem IsForced.eq_of_isPadded (hforced : IsForced value) (hpadded : IsPadded spelling text)
    (hfound : Denotes spelling found) (hrest : IsStop rest) (hlater : EndsNumeral later)
    (h : value.renderChars ++ rest = text ++ later) : found = value.datum ∧ rest = later := by
  obtain ⟨before, after, hbefore, hafter, rfl⟩ := hpadded
  obtain ⟨c, tail, htail, hc, -⟩ := exists_renderChars_eq_cons value
  have hnil : before = [] := by
    rw [htail, List.cons_append, List.append_assoc] at h
    exact hbefore.eq_nil hc h
  rw [hnil, List.nil_append, List.append_assoc] at h
  obtain ⟨hdatum, rfl⟩ :=
    hforced hfound hrest.endsNumeral (hafter.endsNumeral_append hlater) h
  cases after with
  | nil => exact ⟨hdatum, rfl⟩
  | cons d after =>
    have hd := hafter d List.mem_cons_self
    rw [hrest.isSpace d rfl] at hd
    cases hd

theorem isStop_cons {c : Char} (hc : c = ',' ∨ c = ']' ∨ c = '}') (rest : List Char) :
    IsStop (c :: rest) := by
  constructor
  · intro d hd
    obtain rfl := Option.some.inj hd
    rcases hc with rfl | rfl | rfl <;> decide
  · intro d hd
    obtain rfl := Option.some.inj hd
    rcases hc with rfl | rfl | rfl <;> decide

theorem IsForced.eq_of_isSpelled {member : String × Json} {other : Member}
    (hforced : IsForced member.2) (hspelled : other.IsSpelled)
    (hfound : Denotes other.spelling other.datum) (hrest : IsStop rest) (hlater : EndsNumeral later)
    (h : memberChars member ++ rest = other.text ++ later) :
    (other.key, other.datum) = (member.1, member.2.datum) ∧ rest = later := by
  obtain ⟨before, key, between, padded, hbefore, hkey, hbetween, hpadded, htext⟩ := hspelled
  rw [htext, memberChars] at h
  have hquote : isSpace '"' = false := by decide
  have hcolon : isSpace ':' = false := by decide
  have hnil : before = [] := by
    simp only [quote, List.cons_append, List.append_assoc] at h
    exact hbefore.eq_nil hquote h
  simp only [hnil, List.nil_append, List.cons_append, List.append_assoc] at h
  obtain ⟨hname, h⟩ := eq_of_quote hkey h
  have hnil : between = [] := hbetween.eq_nil hcolon h
  rw [hnil, List.nil_append] at h
  obtain ⟨hdatum, hlater⟩ :=
    hforced.eq_of_isPadded hpadded hfound hrest hlater (List.cons.inj h).2
  exact ⟨by rw [hname, hdatum], hlater⟩

/-- An item of an array starts with a blank or with what opens its datum, so not with a bracket. -/
theorem exists_eq_cons_of_isPadded (hpadded : IsPadded spelling text)
    (hfound : Denotes spelling found) : ∃ c rest, text = c :: rest ∧ c ≠ ']' := by
  obtain ⟨before, after, hbefore, -, rfl⟩ := hpadded
  obtain ⟨c, tail, rfl, hopens⟩ := hfound.exists_eq_cons
  exact hbefore.exists_append_eq_cons (by decide) (ne_of_opens hopens).2.1

theorem Member.IsSpelled.exists_eq_cons {member : Member} (hspelled : member.IsSpelled) :
    ∃ c rest, member.text = c :: rest ∧ c ≠ '}' := by
  obtain ⟨before, key, between, padded, hbefore, -, -, -, htext⟩ := hspelled
  rw [htext]
  exact hbefore.exists_append_eq_cons (by decide) (by decide)

/-- There is only one way to go on from the start of a value's text. -/
theorem eq_of_denotes (value : Json) : IsForced value := by
  induction value using inductionOn with
  | string string =>
    intro text rest later found hfound hrest hlater h
    rw [renderChars] at h
    have hopens : found.opens '"' = true := hfound.opens h
    cases hfound with
    | string hspelling =>
      rw [List.cons_append, List.append_assoc, List.singleton_append] at h
      obtain ⟨hstring, hlater⟩ := eq_of_quote hspelling h
      exact ⟨by rw [datum, hstring], hlater⟩
    | null | isTrue | isFalse | number | array | object => cases hopens
  | number n =>
    intro text rest later found hfound hrest hlater h
    rw [renderChars] at h
    obtain ⟨c, digits, hdigits, hdigit⟩ := exists_toDigits_eq_cons n
    have hopens : found.opens c = true := hfound.opens (hdigits ▸ h)
    have hchars : ∀ c ∈ Nat.toDigits 10 n, isNumeralChar c = true :=
      (isNumeral_toDigits n).isNumeralChar
    cases hfound with
    | number hnumeral =>
      obtain ⟨rfl, hlater⟩ := append_inj_of_all hchars hnumeral.isNumeralChar hrest hlater h
      exact ⟨by rw [datum], hlater⟩
    | null | isTrue | isFalse | string | array | object =>
      rw [of_decide_eq_true hopens] at hdigit
      cases hdigit
  | boolean truth =>
    intro text rest later found hfound hrest hlater h
    cases truth with
    | false =>
      have hopens : found.opens 'f' = true := hfound.opens h
      cases hfound with
      | isFalse => exact ⟨rfl, List.append_cancel_left h⟩
      | null | isTrue | string | number | array | object => cases hopens
    | true =>
      have hopens : found.opens 't' = true := hfound.opens h
      cases hfound with
      | isTrue => exact ⟨rfl, List.append_cancel_left h⟩
      | null | isFalse | string | number | array | object => cases hopens
  | array items ih =>
    intro text rest later found hfound hrest hlater h
    rw [renderChars, renderItems_eq_intercalate] at h
    have hopens : found.opens '[' = true := hfound.opens h
    cases hfound with
    | array htext hpadded hparts =>
      rw [List.cons_append, List.cons_append, List.append_assoc, List.append_assoc,
        List.singleton_append, List.singleton_append] at h
      rw [datum, itemData_eq_map]
      have hmap := map_eq_of_isSequence datum Item.datum (Or.inl rfl) ?_
        (fun part hpart ↦ exists_eq_cons_of_isPadded (hpadded part hpart) (hparts part hpart)) ?_
        htext (List.cons.inj h).2
      · exact ⟨congrArg Datum.array hmap.1, hmap.2⟩
      · intro item _
        obtain ⟨c, tail, htail, hc, hne, -⟩ := exists_renderChars_eq_cons item
        exact ⟨c, tail, htail, hc, hne⟩
      · intro item hitem part hpart c d rest later hc hd h
        have hforced : IsForced item := ih item hitem
        exact hforced.eq_of_isPadded (hpadded part hpart) (hparts part hpart)
          (isStop_cons (hc.imp_right Or.inl) rest)
          (isStop_cons (hd.imp_right Or.inl) later).endsNumeral h
    | null | isTrue | isFalse | string | number | object => cases hopens
  | object members ih =>
    intro text rest later found hfound hrest hlater h
    rw [renderChars, renderMembers_eq_intercalate] at h
    have hopens : found.opens '{' = true := hfound.opens h
    cases hfound with
    | object htext hspelled hparts =>
      rw [List.cons_append, List.cons_append, List.append_assoc, List.append_assoc,
        List.singleton_append, List.singleton_append] at h
      rw [datum, memberData_eq_map]
      have hquoted : ∀ member ∈ members, ∃ c rest, memberChars member = c :: rest ∧
          isSpace c = false ∧ c ≠ '}' :=
        fun member _ ↦ ⟨'"', _, rfl, by decide, by decide⟩
      have hmap := map_eq_of_isSequence (fun member ↦ (member.1, member.2.datum))
        (fun member ↦ (member.key, member.datum)) (Or.inr rfl) hquoted
        (fun part hpart ↦ (hspelled part hpart).exists_eq_cons) ?_ htext (List.cons.inj h).2
      · exact ⟨congrArg Datum.object hmap.1, hmap.2⟩
      · intro member hmember part hpart c d rest later hc hd h
        have hforced : IsForced member.2 := ih member hmember
        exact hforced.eq_of_isSpelled (hspelled part hpart) (hparts part hpart)
          (isStop_cons (hc.imp_right Or.inr) rest)
          (isStop_cons (hd.imp_right Or.inr) later).endsNumeral h
    | null | isTrue | isFalse | string | number | array => cases hopens

/-- A written value is a JSON text, and it denotes that value and nothing else. -/
theorem isText_render_iff {value : Json} {found : Datum} :
    IsText value.render.toList found ↔ found = value.datum := by
  rw [render, String.toList_ofList]
  constructor
  · rintro ⟨spelling, hpadded, hfound⟩
    have hstop : IsStop [] := ⟨by simp [EndsNumeral], by simp⟩
    have hwhole : value.renderChars ++ [] = value.renderChars ++ [] := rfl
    exact ((eq_of_denotes value).eq_of_isPadded hpadded hfound hstop hstop.endsNumeral hwhole).1
  · rintro rfl
    exact ⟨value.renderChars, isPadded_self _, denotes_renderChars value⟩

end Values

end Json

end CommandScript
