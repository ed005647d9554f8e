import CommandScript.Toml.Value
import CommandScript.Toml.Text
/-!
# TOML scalars

What an unquoted value says: a truth value, a number, a date or a time. The whole run of characters
decides; none of it may be left over. Underscores may stand between digits, and a decimal has no
needless zero in front. An integer is told by its outline first: a run with that outline that writes
no number, such as `0x` or `1_a`, is a malformed integer and still a value.
-/

set_option autoImplicit false
set_option relaxedAutoImplicit false

namespace CommandScript.Toml

/-- The number that digits write in a base. -/
def ofDigits (base : Nat) (digits : List Char) : Nat :=
  digits.foldl (fun value c ↦ value * base + (hexDigit? c).getD 0) 0

def isDecimal (c : Char) : Bool := c.isDigit

def isDigitIn (base : Nat) (c : Char) : Bool := (hexDigit? c).any (· < base)

/-- Whether the sign in front of a text, if there is one, is negative, and the text without it. -/
def splitSign : List Char → Bool × List Char
  | '-' :: rest => (true, rest)
  | '+' :: rest => (false, rest)
  | cs => (false, cs)

/-- Drops the underscores of a number, each of which stands between two digits. Whether a digit
stands in front is given. -/
def dropSeparators? (isDigit : Char → Bool) : (afterDigit : Bool) → List Char → Option (List Char)
  | _, [] => some []
  | afterDigit, '_' :: cs =>
    if afterDigit && cs.head?.any isDigit then dropSeparators? isDigit false cs else none
  | _, c :: cs => (dropSeparators? isDigit (isDigit c) cs).map (c :: ·)

/-- Whether a decimal has a zero in front of further digits. -/
def hasNeedlessZero : List Char → Bool
  | '0' :: c :: _ => isDecimal c || c = '_'
  | _ => false

/-- The number that a text writes in a base, if it holds digits alone. -/
def natural? (base : Nat) (cs : List Char) : Option Nat :=
  if cs.isEmpty || !cs.all (isDigitIn base) then none else some (ofDigits base cs)

/-- The number that a text writes in decimal behind its sign. -/
def signed? (cs : List Char) : Option Int :=
  let (negative, magnitude) := splitSign cs
  (natural? 10 magnitude).map fun value ↦ if negative then -(value : Int) else value

/-- What an integer of the right outline says, given the number that it writes. -/
def Value.ofInteger : Option Int → Value
  | some value => .integer value
  | none => .malformedInteger

/-- An integer in a base, behind the two characters that name the base. -/
def based? (base : Nat) (cs : List Char) : Option Value := do
  guard (cs.all fun c ↦ isDigitIn base c || c = '_')
  let digits ← dropSeparators? (isDigitIn 16) false cs
  return Value.ofInteger ((natural? base digits).map Int.ofNat)

/-- Whether a text without a sign has the outline of a decimal integer: digits, and then anything
behind an underscore that is not the mark of another kind of value. -/
def hasDecimalOutline (cs : List Char) : Bool :=
  match cs.dropWhile isDecimal with
  | [] => !cs.isEmpty
  | c :: rest => c = '_' && rest.all fun c ↦ !(c = ' ' || c = '.' || c = 'e' || c = 'E')

/-- An integer in decimal. -/
def decimalInteger? (cs : List Char) : Option Value := do
  let magnitude := (splitSign cs).2
  guard (hasDecimalOutline magnitude && !hasNeedlessZero magnitude)
  let digits ← dropSeparators? (isDigitIn 16) false cs
  return Value.ofInteger (signed? digits)

def integer? : List Char → Option Value
  | '0' :: 'x' :: cs => based? 16 cs
  | '0' :: 'o' :: cs => based? 8 cs
  | '0' :: 'b' :: cs => based? 2 cs
  | cs => decimalInteger? cs

namespace Real

def isExponentMark (c : Char) : Bool := c = 'e' || c = 'E'

/-- A decimal with a fraction, an exponent or both, without a sign and underscores. -/
def decimal? (cs : List Char) : Option Real := do
  let significand := cs.takeWhile fun c ↦ !isExponentMark c
  let whole := significand.takeWhile (· ≠ '.')
  guard (natural? 10 whole).isSome
  let fraction ← match significand.dropWhile (· ≠ '.') with
    | [] => some []
    | _ :: digits => (natural? 10 digits).map fun _ ↦ digits
  let exponent ← match cs.dropWhile fun c ↦ !isExponentMark c with
    | [] => if fraction.isEmpty then none else some 0
    | _ :: exponent => signed? exponent
  return finite (ofDigits 10 (whole ++ fraction)) (exponent - fraction.length)

/-- A number that is not whole. Its sign is not kept. -/
def ofChars? (cs : List Char) : Option Real :=
  match (splitSign cs).2 with
  | ['i', 'n', 'f'] => some infinite
  | ['n', 'a', 'n'] => some nan
  | magnitude =>
    if hasNeedlessZero magnitude then none
    else do decimal? (splitSign (← dropSeparators? isDecimal false cs)).2

/-- The least number that no 64-bit float is nearest to. -/
def doubleLimit : Nat := Nat.pow 2 1024 - Nat.pow 2 970

/-- The number of decimal digits that the greatest 64-bit float has. -/
def doubleDigits : Int := 309

/-- Whether a number rounds to a 64-bit float that is finite if the number is. -/
def fitsDouble : Real → Bool
  | finite 0 _ => true
  | finite mantissa exponent =>
    let digits : Int := (Nat.toDigits 10 mantissa).length + exponent
    if digits < doubleDigits then true
    else if doubleDigits < digits then false
    else
      match exponent with
      | .ofNat e => mantissa * Nat.pow 10 e < doubleLimit
      | .negSucc e => mantissa < doubleLimit * Nat.pow 10 (e + 1)
  | infinite | nan => true

end Real

/-- The number that exactly so many digits in front of a text write, and the rest of the text. -/
def fixedDigits? (size : Nat) (cs : List Char) : Option (Nat × List Char) :=
  let digits := cs.take size
  if digits.length = size ∧ digits.all isDecimal then some (ofDigits 10 digits, cs.drop size)
  else none

/-- A given character in front of a text, taken off. -/
def expect? (c : Char) : List Char → Option (List Char)
  | [] => none
  | d :: cs => if c = d then some cs else none

def isLeapYear (year : Nat) : Bool := year % 4 = 0 && (year % 100 ≠ 0 || year % 400 = 0)

def daysInMonth (year month : Nat) : Nat :=
  if month = 2 then if isLeapYear year then 29 else 28
  else if month = 4 || month = 6 || month = 9 || month = 11 then 30
  else 31

/-- Takes a date off a text. -/
def skipDate? (cs : List Char) : Option (List Char) := do
  let (year, cs) ← fixedDigits? 4 cs
  let (month, cs) ← fixedDigits? 2 (← expect? '-' cs)
  let (day, cs) ← fixedDigits? 2 (← expect? '-' cs)
  guard (1 ≤ month ∧ month ≤ 12 ∧ 1 ≤ day ∧ day ≤ daysInMonth year month)
  return cs

/-- Takes the fraction of a second off a text, if it stands there. -/
def skipFraction? : List Char → Option (List Char)
  | '.' :: cs => if (cs.takeWhile isDecimal).isEmpty then none else some (cs.dropWhile isDecimal)
  | cs => some cs

/-- Takes seconds off a text, if they stand there. -/
def skipSeconds? : List Char → Option (List Char)
  | ':' :: cs => do
    let (second, cs) ← fixedDigits? 2 cs
    guard (second ≤ 60)
    skipFraction? cs
  | cs => some cs

/-- Takes hours and minutes off a text. -/
def skipMinutes? (cs : List Char) : Option (List Char) := do
  let (hour, cs) ← fixedDigits? 2 cs
  let (minute, cs) ← fixedDigits? 2 (← expect? ':' cs)
  guard (hour ≤ 23 ∧ minute ≤ 59)
  return cs

/-- Takes a time of day off a text. -/
def skipTime? (cs : List Char) : Option (List Char) := do skipSeconds? (← skipMinutes? cs)

/-- Takes an offset from universal time off a text, if it stands there. -/
def skipOffset? : List Char → Option (List Char)
  | [] => some []
  | c :: cs =>
    if c = 'Z' || c = 'z' then some cs
    else if c = '+' || c = '-' then skipMinutes? cs
    else some (c :: cs)

def isDate (cs : List Char) : Bool := skipDate? cs == some []

def isTime (cs : List Char) : Bool := skipTime? cs == some []

/-- Whether a text is a date, a blank or a `T`, and a time with or without an offset. -/
def isDateWithTime (cs : List Char) : Bool :=
  match skipDate? cs with
  | some (c :: cs) =>
    (c = 'T' || c = 't' || c = ' ') && (skipTime? cs).bind skipOffset? == some []
  | _ => false

/-- What an unquoted value says. -/
def scalar? (cs : List Char) : Option Value :=
  if cs = ['t', 'r', 'u', 'e'] then some (.boolean true)
  else if cs = ['f', 'a', 'l', 's', 'e'] then some (.boolean false)
  else if isDate cs || isTime cs || isDateWithTime cs then some .dateTime
  else integer? cs <|> (Real.ofChars? cs).map .real

end CommandScript.Toml
