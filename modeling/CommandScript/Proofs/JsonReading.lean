import CommandScript.Json
import CommandScript.Proofs.PrintedScripts
import Mathlib.Tactic.SplitIfs
/-!
# JSON read back

A reader of JSON texts: blanks, every escape of a string's characters, pairs of surrogates, and
nesting without bound. Of numbers it takes only the natural ones, and it knows no `null`: the
program writes neither. Whatever value is written, its text is read back as that value
(`decode?_render`), and it is a single line without a character below U+0020
(`le_toNat_of_mem_renderChars`).
-/

set_option autoImplicit false
set_option relaxedAutoImplicit false

namespace CommandScript

namespace Json

/-! ### Reading -/

/-- A reader of something at the start of a text, which gives the rest of the text as well. -/
abbrev Reader (α : Type) := List Char → Option (α × List Char)

def isSpace (c : Char) : Bool := c = ' ' || c = '\t' || c = '\n' || c = '\r'

def skipSpaces (text : List Char) : List Char := text.dropWhile isSpace

/-- The character that a letter stands for behind a backslash. -/
def unescape? : Char → Option Char
  | '"' => some '"'
  | '\\' => some '\\'
  | '/' => some '/'
  | 'b' => some '\x08'
  | 'f' => some '\x0c'
  | 'n' => some '\n'
  | 'r' => some '\r'
  | 't' => some '\t'
  | _ => none

def hexDigit? (c : Char) : Option Nat :=
  if c.isDigit then some (c.toNat - '0'.toNat)
  else if 'a' ≤ c ∧ c ≤ 'f' then some (c.toNat - 'a'.toNat + 10)
  else if 'A' ≤ c ∧ c ≤ 'F' then some (c.toNat - 'A'.toNat + 10)
  else none

def hexCode? (digits : List Char) : Option Nat :=
  digits.foldlM (fun code c ↦ (16 * code + ·) <$> hexDigit? c) 0

/-- The codes of a string's characters, up to the quote mark that ends it. -/
def codes? : Reader (List Nat)
  | [] => none
  | '"' :: rest => some ([], rest)
  | '\\' :: 'u' :: first :: second :: third :: fourth :: rest => do
    let code ← hexCode? [first, second, third, fourth]
    let (codes, rest) ← codes? rest
    return (code :: codes, rest)
  | '\\' :: letter :: rest => do
    let c ← unescape? letter
    let (codes, rest) ← codes? rest
    return (c.toNat :: codes, rest)
  | c :: rest =>
    if c = '\\' ∨ c.toNat < 0x20 then none
    else do
      let (codes, rest) ← codes? rest
      return (c.toNat :: codes, rest)

/-- The characters that codes stand for. Two surrogates, a high one and a low one, make one. -/
def ofCodes? : List Nat → Option (List Char)
  | [] => some []
  | code :: codes =>
    if code.isValidChar then (Char.ofNat code :: ·) <$> ofCodes? codes
    else
      match codes with
      | [] => none
      | low :: codes =>
        if 0xD800 ≤ code ∧ code < 0xDC00 ∧ 0xDC00 ≤ low ∧ low < 0xE000 then
          (Char.ofNat (0x10000 + 0x400 * (code - 0xD800) + (low - 0xDC00)) :: ·) <$> ofCodes? codes
        else none

/-- A string behind its first quote mark. -/
def string? : Reader String := fun text ↦ do
  let (codes, rest) ← codes? text
  let chars ← ofCodes? codes
  return (String.ofList chars, rest)

/-- A natural number, without leading zeros. -/
def number? : Reader Nat := fun text ↦
  let digits := text.takeWhile Char.isDigit
  if digits.isEmpty || digits.head? == some '0' && digits.tail ≠ [] then none
  else some (Nat.ofDigitChars 10 digits 0, text.dropWhile Char.isDigit)

section Sequences

variable {α : Type}

/-- Items with commas between them, up to the character that ends them. -/
def items? (item? : Reader α) (close : Char) (text : List Char) : Option (List α × List Char) :=
  match item? text with
  | none => none
  | some (item, rest) =>
    match skipSpaces rest with
    | [] => none
    | c :: rest =>
      if c = close then some ([item], rest)
      -- What a reader of items leaves is not known to be shorter, so it is asked for here.
      else if c = ',' ∧ rest.length < text.length then do
        let (items, rest) ← items? item? close rest
        return (item :: items, rest)
      else none
termination_by text.length

/-- Items behind the character that opens their sequence, of which there may be none. -/
def sequence? (item? : Reader α) (close : Char) : Reader (List α) := fun text ↦
  match skipSpaces text with
  | [] => none
  | c :: rest => if c = close then some ([], rest) else items? item? close (c :: rest)

/-- A member of an object: a key, a colon and a value. -/
def member? (value? : Reader α) : Reader (String × α) := fun text ↦
  match skipSpaces text with
  | '"' :: text => do
    let (key, rest) ← string? text
    match skipSpaces rest with
    | ':' :: rest => do
      let (value, rest) ← value? rest
      return ((key, value), rest)
    | _ => none
  | _ => none

end Sequences

/-- A value that is nested less than so many deep. -/
def value? : Nat → Reader Json
  | 0, _ => none
  | depth + 1, text =>
    match skipSpaces text with
    | '"' :: rest => do
      let (text, rest) ← string? rest
      return (.string text, rest)
    | '[' :: rest => do
      let (items, rest) ← sequence? (value? depth) ']' rest
      return (.array items, rest)
    | '{' :: rest => do
      let (members, rest) ← sequence? (member? (value? depth)) '}' rest
      return (.object members, rest)
    | 't' :: 'r' :: 'u' :: 'e' :: rest => some (.boolean true, rest)
    | 'f' :: 'a' :: 'l' :: 's' :: 'e' :: rest => some (.boolean false, rest)
    | rest => do
      let (value, rest) ← number? rest
      return (.number value, rest)

/-- The value whose text this is. Nothing is nested deeper than its text is long. -/
def decode? (text : String) : Option Json :=
  match value? text.toList.length text.toList with
  | some (value, rest) => if (skipSpaces rest).isEmpty then some value else none
  | none => none

/-! ### Strings and numbers read back -/

variable {rest : List Char}

theorem skipSpaces_cons {c : Char} (hc : isSpace c = false) (rest : List Char) :
    skipSpaces (c :: rest) = c :: rest := by
  simp [skipSpaces, hc]

theorem codes?_short {letter c : Char} (hletter : unescape? letter = some c) (rest : List Char) :
    codes? ('\\' :: letter :: rest) =
      (codes? rest).map fun read ↦ (c.toNat :: read.1, read.2) := by
  have hu : letter ≠ 'u' := by
    rintro rfl
    cases hletter
  rw [codes?.eq_4 letter rest fun _ _ _ _ _ h ↦ absurd h hu, hletter]
  cases codes? rest <;> rfl

theorem codes?_hex {first second third fourth : Char} {code : Nat}
    (hcode : hexCode? [first, second, third, fourth] = some code) (rest : List Char) :
    codes? ('\\' :: 'u' :: first :: second :: third :: fourth :: rest) =
      (codes? rest).map fun read ↦ (code :: read.1, read.2) := by
  rw [codes?, hcode]
  cases codes? rest <;> rfl

theorem codes?_plain {c : Char} (hquote : c ≠ '"') (hbackslash : c ≠ '\\') (hc : 0x20 ≤ c.toNat)
    (rest : List Char) :
    codes? (c :: rest) = (codes? rest).map fun read ↦ (c.toNat :: read.1, read.2) := by
  rw [codes?.eq_5 c rest hquote (fun _ _ _ _ _ h ↦ absurd h hbackslash)
    (fun _ _ h ↦ absurd h hbackslash), if_neg (not_or.mpr ⟨hbackslash, Nat.not_lt.mpr hc⟩)]
  cases codes? rest <;> rfl

theorem hexCode?_of_lt {n : Nat} (hn : n < 0x20) :
    hexCode? ['0', '0', Nat.digitChar (n / 16), Nat.digitChar (n % 16)] = some n := by
  have hall : ∀ n < 0x20,
      hexCode? ['0', '0', Nat.digitChar (n / 16), Nat.digitChar (n % 16)] = some n := by
    decide
  exact hall n hn

/-- Every character is read back from its spelling: by a letter, by its code, or as it is. -/
theorem codes?_escape (c : Char) (rest : List Char) :
    codes? (escape c ++ rest) = (codes? rest).map fun read ↦ (c.toNat :: read.1, read.2) := by
  rw [escape]
  split_ifs with hquote hbackslash hn hr ht hb hf hlow
  · subst hquote
    exact codes?_short rfl rest
  · subst hbackslash
    exact codes?_short rfl rest
  · subst hn
    exact codes?_short rfl rest
  · subst hr
    exact codes?_short rfl rest
  · subst ht
    exact codes?_short rfl rest
  · subst hb
    exact codes?_short rfl rest
  · subst hf
    exact codes?_short rfl rest
  · exact codes?_hex (hexCode?_of_lt hlow) rest
  · exact codes?_plain hquote hbackslash (Nat.le_of_not_lt hlow) rest

theorem codes?_flatMap_escape (chars : List Char) (rest : List Char) :
    codes? (chars.flatMap escape ++ '"' :: rest) = some (chars.map Char.toNat, rest) := by
  induction chars with
  | nil => rw [List.flatMap_nil, List.nil_append, codes?, List.map_nil]
  | cons c chars ih =>
    rw [List.flatMap_cons, List.append_assoc, codes?_escape, ih]
    rfl

theorem ofCodes?_map_toNat (chars : List Char) : ofCodes? (chars.map Char.toNat) = some chars := by
  induction chars with
  | nil => rfl
  | cons c chars ih =>
    have hvalid : c.toNat.isValidChar := c.valid
    rw [List.map_cons, ofCodes?.eq_def]
    simp [hvalid, ih]

theorem string?_append (text : String) (rest : List Char) :
    string? (text.toList.flatMap escape ++ '"' :: rest) = some (text, rest) := by
  rw [string?, codes?_flatMap_escape]
  simp [ofCodes?_map_toNat]

theorem ne_of_isDigit {c d : Char} (hc : c.isDigit = true) (hd : d.isDigit = false) : c ≠ d := by
  rintro rfl
  rw [hc] at hd
  cases hd

theorem isSpace_of_isDigit {c : Char} (hc : c.isDigit = true) : isSpace c = false := by
  simp [isSpace, ne_of_isDigit hc (by decide : ' '.isDigit = false),
    ne_of_isDigit hc (by decide : '\t'.isDigit = false),
    ne_of_isDigit hc (by decide : '\n'.isDigit = false),
    ne_of_isDigit hc (by decide : '\r'.isDigit = false)]

/-- No digit stands at the start, so that a number may stand in front. -/
def IsDelimited (text : List Char) : Prop := ∀ c ∈ text.head?, c.isDigit = false

theorem isDelimited_cons {c : Char} (hc : c.isDigit = false) (rest : List Char) :
    IsDelimited (c :: rest) := by
  intro d hd
  obtain rfl := Option.some.inj hd
  exact hc

theorem exists_toDigits_eq_cons (n : Nat) :
    ∃ c digits, Nat.toDigits 10 n = c :: digits ∧ c.isDigit = true := by
  obtain ⟨c, digits, hdigits⟩ := List.exists_cons_of_ne_nil (@Nat.toDigits_ne_nil n 10)
  exact ⟨c, digits, hdigits,
    Nat.isDigit_of_mem_toDigits (by decide) (by decide) (hdigits ▸ List.mem_cons_self)⟩

/-- Digits are written without leading zeros. -/
theorem eq_zero_of_head?_toDigits {n : Nat} (h : (Nat.toDigits 10 n).head? = some '0') : n = 0 := by
  induction n using Nat.strongRecOn with
  | _ n ih =>
    rw [Nat.toDigits_eq_if (by decide)] at h
    split at h
    · next hn =>
      have hall : ∀ n < 10, Nat.digitChar n = '0' → n = 0 := by decide
      exact hall n hn (by simpa using h)
    · next hn =>
      rw [List.head?_append_of_ne_nil _ Nat.toDigits_ne_nil] at h
      have := ih (n / 10) (by omega) h
      omega

theorem number?_append (n : Nat) (hrest : IsDelimited rest) :
    number? (Nat.toDigits 10 n ++ rest) = some (n, rest) := by
  have hdigits : ∀ c ∈ Nat.toDigits 10 n, c.isDigit = true := fun c hc ↦
    Nat.isDigit_of_mem_toDigits (by decide) (by decide) hc
  have htake : rest.takeWhile Char.isDigit = [] := by
    cases rest with
    | nil => rfl
    | cons c rest => simp [hrest c rfl]
  have hdrop : rest.dropWhile Char.isDigit = rest := by
    cases rest with
    | nil => rfl
    | cons c rest => simp [hrest c rfl]
  have hzero : (Nat.toDigits 10 n).head? = some '0' → (Nat.toDigits 10 n).tail = [] := by
    intro h
    rw [eq_zero_of_head?_toDigits h]
    rfl
  rw [number?, List.takeWhile_append_of_pos hdigits, List.dropWhile_append_of_pos hdigits, htake,
    hdrop, List.append_nil, Nat.ofDigitChars_toDigits (by decide) (by decide)]
  simpa [Nat.toDigits_ne_nil] using hzero

/-! ### Values and their parts -/

/-- What holds of the values without parts, and of an array or an object if it holds of all its
parts, holds of every value. -/
@[elab_as_elim]
theorem inductionOn {motive : Json → Prop} (value : Json) (string : ∀ text, motive (.string text))
    (number : ∀ number, motive (.number number)) (boolean : ∀ truth, motive (.boolean truth))
    (array : ∀ items : List Json, (∀ item ∈ items, motive item) → motive (.array items))
    (object : ∀ members : List (String × Json), (∀ member ∈ members, motive member.2) →
      motive (.object members)) : motive value := by
  refine @Json.rec motive (fun items ↦ ∀ item ∈ items, motive item)
    (fun members ↦ ∀ member ∈ members, motive member.2) (fun member ↦ motive member.2)
    string number boolean array object ?_ ?_ ?_ ?_ ?_ value
  · intro item h
    cases h
  · exact fun item items hitem hitems ↦ List.forall_mem_cons.mpr ⟨hitem, hitems⟩
  · intro member h
    cases h
  · exact fun member members hmember hmembers ↦ List.forall_mem_cons.mpr ⟨hmember, hmembers⟩
  · exact fun key value hvalue ↦ hvalue

section Intercalate

variable {α : Type} {render : α → List Char} {items : List α}

theorem intercalate_map_cons_cons (render : α → List Char) (item next : α) (items : List α) :
    [','].intercalate ((item :: next :: items).map render) =
      render item ++ ',' :: [','].intercalate ((next :: items).map render) := by
  rw [List.map_cons, List.map_cons, List.intercalate_cons_cons, List.append_assoc]
  rfl

theorem mem_intercalate {c : Char} (h : c ∈ [','].intercalate (items.map render)) :
    c = ',' ∨ ∃ item ∈ items, c ∈ render item := by
  induction items with
  | nil => cases h
  | cons item items ih =>
    cases items with
    | nil => exact Or.inr ⟨item, List.mem_cons_self, by simpa using h⟩
    | cons next items =>
      rw [intercalate_map_cons_cons] at h
      rcases List.mem_append.mp h with h | h
      · exact Or.inr ⟨item, List.mem_cons_self, h⟩
      · rcases List.mem_cons.mp h with h | h
        · exact Or.inl h
        · refine (ih h).imp_right fun ⟨other, hother, hc⟩ ↦ ?_
          exact ⟨other, List.mem_cons_of_mem _ hother, hc⟩

theorem length_le_intercalate (render : α → List Char) {item : α} (hitem : item ∈ items) :
    (render item).length ≤ ([','].intercalate (items.map render)).length := by
  induction items with
  | nil => cases hitem
  | cons first items ih =>
    cases items with
    | nil =>
      obtain rfl := List.mem_singleton.mp hitem
      simp
    | cons next items =>
      rw [intercalate_map_cons_cons, List.length_append, List.length_cons]
      rcases List.mem_cons.mp hitem with rfl | hitem
      · omega
      · have := ih hitem
        omega

/-! ### Sequences read back -/

variable {item? : Reader α} {close : Char}

/-- What a reader of items gives back, whatever stands behind them, with commas between them. -/
theorem items?_intercalate (hclose : close = ']' ∨ close = '}') (hitems : items ≠ [])
    (hread : ∀ item ∈ items, ∀ rest, IsDelimited rest →
      item? (render item ++ rest) = some (item, rest)) (rest : List Char) :
    items? item? close ([','].intercalate (items.map render) ++ close :: rest) =
      some (items, rest) := by
  have hspace : isSpace close = false ∧ close.isDigit = false ∧ ',' ≠ close := by
    rcases hclose with rfl | rfl <;> decide
  induction items with
  | nil => exact absurd rfl hitems
  | cons item items ih =>
    cases items with
    | nil =>
      rw [items?, List.map_singleton, List.intercalate_singleton,
        hread item List.mem_cons_self _ (isDelimited_cons hspace.2.1 _)]
      simp [skipSpaces_cons hspace.1]
    | cons next items =>
      rw [items?, intercalate_map_cons_cons, List.append_assoc, List.cons_append,
        hread item List.mem_cons_self _ (isDelimited_cons (by decide) _)]
      have hrest := ih (List.cons_ne_nil _ _) fun other hother ↦
        hread other (List.mem_cons_of_mem _ hother)
      have hcomma : isSpace ',' = false := by decide
      rw [List.map_cons] at hrest
      simp [skipSpaces_cons hcomma, hspace.2.2, hrest]
      omega

/-- What a reader of a whole sequence gives back, if each item starts with something that is neither
a blank nor the end of the sequence. -/
theorem sequence?_intercalate (hclose : close = ']' ∨ close = '}')
    (hstart : ∀ item ∈ items, ∃ c text, render item = c :: text ∧ isSpace c = false ∧ c ≠ close)
    (hread : ∀ item ∈ items, ∀ rest, IsDelimited rest →
      item? (render item ++ rest) = some (item, rest)) (rest : List Char) :
    sequence? item? close ([','].intercalate (items.map render) ++ close :: rest) =
      some (items, rest) := by
  have hspace : isSpace close = false := by rcases hclose with rfl | rfl <;> decide
  cases items with
  | nil => simp [sequence?, skipSpaces_cons hspace]
  | cons item items =>
    obtain ⟨c, text, htext, hc, hne⟩ := hstart item List.mem_cons_self
    have hcons : ∃ later, [','].intercalate ((item :: items).map render) = c :: later := by
      cases items with
      | nil => exact ⟨text, by simpa using htext⟩
      | cons next items =>
        rw [intercalate_map_cons_cons, htext]
        exact ⟨_, rfl⟩
    obtain ⟨later, hlater⟩ := hcons
    have hitems := items?_intercalate hclose (List.cons_ne_nil item items) hread rest
    rw [hlater, List.cons_append] at hitems
    rw [sequence?, hlater, List.cons_append, skipSpaces_cons hc]
    simp [hne, hitems]

end Intercalate

/-! ### Values read back -/

/-- The text of a member. -/
def memberChars (member : String × Json) : List Char :=
  quote member.1 ++ ':' :: member.2.renderChars

theorem renderItems_eq_intercalate (items : List Json) :
    renderItems items = [','].intercalate (items.map renderChars) := by
  induction items with
  | nil => rfl
  | cons item items ih =>
    cases items with
    | nil => simp [renderItems]
    | cons next items => rw [renderItems, ih, intercalate_map_cons_cons]

theorem renderMembers_eq_intercalate (members : List (String × Json)) :
    renderMembers members = [','].intercalate (members.map memberChars) := by
  induction members with
  | nil => rfl
  | cons member members ih =>
    cases members with
    | nil => simp [renderMembers, memberChars]
    | cons next members =>
      rw [renderMembers, ih, intercalate_map_cons_cons, memberChars]
      simp

/-- A value's text starts with something that is neither a blank nor the end of a sequence. -/
theorem exists_renderChars_eq_cons (value : Json) : ∃ c text, value.renderChars = c :: text ∧
    isSpace c = false ∧ c ≠ ']' ∧ c ≠ '}' := by
  cases value with
  | string text => exact ⟨_, _, renderChars.eq_1 text, by decide⟩
  | number n =>
    obtain ⟨c, digits, hdigits, hdigit⟩ := exists_toDigits_eq_cons n
    exact ⟨c, digits, by rw [renderChars, hdigits], isSpace_of_isDigit hdigit,
      ne_of_isDigit hdigit (by decide), ne_of_isDigit hdigit (by decide)⟩
  | boolean truth => cases truth <;> exact ⟨_, _, rfl, by decide⟩
  | array items => exact ⟨_, _, renderChars.eq_5 items, by decide⟩
  | object members => exact ⟨_, _, renderChars.eq_6 members, by decide⟩

theorem member?_append {value? : Reader Json} (member : String × Json)
    (hread : value? (member.2.renderChars ++ rest) = some (member.2, rest)) :
    member? value? (memberChars member ++ rest) = some (member, rest) := by
  have hquote : isSpace '"' = false := by decide
  have hcolon : isSpace ':' = false := by decide
  rw [member?, memberChars, quote]
  simp [skipSpaces_cons hquote, string?_append, skipSpaces_cons hcolon, hread]

theorem value?_of_isDigit {c : Char} (hc : c.isDigit = true) (depth : Nat) (rest : List Char) :
    value? (depth + 1) (c :: rest) =
      (number? (c :: rest)).map fun read ↦ (.number read.1, read.2) := by
  rw [value?, skipSpaces_cons (isSpace_of_isDigit hc)]
  split
  · next h => exact absurd (List.cons.inj h).1 (ne_of_isDigit hc (by decide))
  · next h => exact absurd (List.cons.inj h).1 (ne_of_isDigit hc (by decide))
  · next h => exact absurd (List.cons.inj h).1 (ne_of_isDigit hc (by decide))
  · next h => exact absurd (List.cons.inj h).1 (ne_of_isDigit hc (by decide))
  · next h => exact absurd (List.cons.inj h).1 (ne_of_isDigit hc (by decide))
  · cases number? (c :: rest) <;> rfl

theorem exists_eq_succ_of_length_le {value : Json} {depth : Nat}
    (hdepth : value.renderChars.length ≤ depth) : ∃ below, depth = below + 1 := by
  obtain ⟨c, text, htext, -⟩ := exists_renderChars_eq_cons value
  rw [htext, List.length_cons] at hdepth
  exact ⟨depth - 1, by omega⟩

/-- A written value is read back, whatever stands behind it, if as many levels are allowed as its
text is long. -/
theorem value?_append {depth : Nat} (value : Json) (hdepth : value.renderChars.length ≤ depth)
    (hrest : IsDelimited rest) : value? depth (value.renderChars ++ rest) = some (value, rest) := by
  induction value using inductionOn generalizing depth rest with
  | string text =>
    obtain ⟨below, rfl⟩ := exists_eq_succ_of_length_le hdepth
    have hquote : isSpace '"' = false := by decide
    rw [value?, renderChars, quote]
    simp [skipSpaces_cons hquote, string?_append]
  | number n =>
    obtain ⟨below, rfl⟩ := exists_eq_succ_of_length_le hdepth
    have hnumber := number?_append n hrest
    obtain ⟨c, digits, hdigits, hdigit⟩ := exists_toDigits_eq_cons n
    rw [hdigits, List.cons_append] at hnumber
    rw [renderChars, hdigits, List.cons_append, value?_of_isDigit hdigit, hnumber]
    rfl
  | boolean truth =>
    obtain ⟨below, rfl⟩ := exists_eq_succ_of_length_le hdepth
    cases truth
    · have hf : isSpace 'f' = false := by decide
      rw [value?, renderChars]
      simp [skipSpaces_cons hf]
    · have ht : isSpace 't' = false := by decide
      rw [value?, renderChars]
      simp [skipSpaces_cons ht]
  | array items ih =>
    obtain ⟨below, rfl⟩ := exists_eq_succ_of_length_le hdepth
    have hbracket : isSpace '[' = false := by decide
    rw [renderChars, renderItems_eq_intercalate] at hdepth ⊢
    -- The brackets are not part of the items, so that one level less is enough for each of them.
    have hitems : ∀ item ∈ items, ∀ rest, IsDelimited rest →
        value? below (item.renderChars ++ rest) = some (item, rest) := by
      intro item hitem rest hrest
      have hlength := length_le_intercalate renderChars hitem
      refine ih item hitem ?_ hrest
      rw [List.length_cons, List.length_append, List.length_singleton] at hdepth
      omega
    have hstart : ∀ item ∈ items, ∃ c text, item.renderChars = c :: text ∧
        isSpace c = false ∧ c ≠ ']' := by
      intro item hitem
      obtain ⟨c, text, htext, hc, hne, -⟩ := exists_renderChars_eq_cons item
      exact ⟨c, text, htext, hc, hne⟩
    have hsequence := sequence?_intercalate (Or.inl rfl) hstart hitems rest
    rw [value?, List.cons_append, List.append_assoc, skipSpaces_cons hbracket]
    simp [hsequence]
  | object members ih =>
    obtain ⟨below, rfl⟩ := exists_eq_succ_of_length_le hdepth
    have hbrace : isSpace '{' = false := by decide
    rw [renderChars, renderMembers_eq_intercalate] at hdepth ⊢
    have hmembers : ∀ member ∈ members, ∀ rest, IsDelimited rest →
        member? (value? below) (memberChars member ++ rest) = some (member, rest) := by
      intro member hmember rest hrest
      have hlength := length_le_intercalate memberChars hmember
      refine member?_append member (ih member hmember ?_ hrest)
      rw [memberChars, List.length_append, List.length_cons] at hlength
      rw [List.length_cons, List.length_append, List.length_singleton] at hdepth
      omega
    have hstart : ∀ member ∈ members, ∃ c text, memberChars member = c :: text ∧
        isSpace c = false ∧ c ≠ '}' :=
      fun member _ ↦ ⟨'"', _, rfl, by decide, by decide⟩
    have hsequence := sequence?_intercalate (Or.inr rfl) hstart hmembers rest
    rw [value?, List.cons_append, List.append_assoc, skipSpaces_cons hbrace]
    simp [hsequence]

/-- Every value is read back from its text. -/
theorem decode?_render (value : Json) : decode? value.render = some value := by
  have hread : value? value.renderChars.length (value.renderChars ++ []) = some (value, []) :=
    value?_append value (Nat.le_refl _) fun c hc ↦ by cases hc
  rw [List.append_nil] at hread
  rw [decode?, render, String.toList_ofList, hread]
  rfl

theorem le_toNat_of_mem_quote {text : String} {c : Char} (hc : c ∈ quote text) :
    0x20 ≤ c.toNat := by
  rw [quote, List.mem_cons, List.mem_append, List.mem_singleton] at hc
  rcases hc with rfl | hc | rfl
  · decide
  · obtain ⟨d, -, hcd⟩ := List.mem_flatMap.mp hc
    exact le_toNat_of_mem_json_escape hcd
  · decide

/-- A value's text is a single line. -/
theorem le_toNat_of_mem_renderChars {value : Json} {c : Char} (hc : c ∈ value.renderChars) :
    0x20 ≤ c.toNat := by
  induction value using inductionOn with
  | string text =>
    rw [renderChars] at hc
    exact le_toNat_of_mem_quote hc
  | number n =>
    rw [renderChars] at hc
    have hdigit := Nat.isDigit_of_mem_toDigits (by decide) (by decide) hc
    exact le_toNat_of_isAlphanum (by simp [Char.isAlphanum, hdigit])
  | boolean truth =>
    cases truth
    · have hword : ['f', 'a', 'l', 's', 'e'].all (0x20 ≤ ·.toNat) = true := by decide
      exact of_decide_eq_true (List.all_eq_true.mp hword c hc)
    · have hword : ['t', 'r', 'u', 'e'].all (0x20 ≤ ·.toNat) = true := by decide
      exact of_decide_eq_true (List.all_eq_true.mp hword c hc)
  | array items ih =>
    rw [renderChars, renderItems_eq_intercalate, List.mem_cons, List.mem_append,
      List.mem_singleton] at hc
    rcases hc with rfl | hc | rfl
    · decide
    · rcases mem_intercalate hc with rfl | ⟨item, hitem, hc⟩
      · decide
      · exact ih item hitem hc
    · decide
  | object members ih =>
    rw [renderChars, renderMembers_eq_intercalate, List.mem_cons, List.mem_append,
      List.mem_singleton] at hc
    rcases hc with rfl | hc | rfl
    · decide
    · rcases mem_intercalate hc with rfl | ⟨member, hmember, hc⟩
      · decide
      · rw [memberChars, List.mem_append, List.mem_cons] at hc
        rcases hc with hc | rfl | hc
        · exact le_toNat_of_mem_quote hc
        · decide
        · exact ih member hmember hc
    · decide

end Json

end CommandScript
