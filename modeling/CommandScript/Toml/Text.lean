/-!
# TOML strings

The four kinds of TOML string. Between double quotes a backslash begins an escape; between single
quotes every character stands for itself. Three quotes open a string of several lines: a line break
right behind them is not content, one or two quotes may stand in front of the three that close it,
and in double quotes a backslash at the end of a line swallows the blanks and line breaks up to the
next character.
-/

set_option autoImplicit false
set_option relaxedAutoImplicit false

namespace CommandScript.Toml

/-- Whether a character may stand in strings and comments: control characters other than the tab
may not. -/
def isTextChar (c : Char) : Bool := c = '\t' || 0x20 ≤ c.toNat && c.toNat ≠ 0x7F

def isSpace (c : Char) : Bool := c = ' ' || c = '\t'

/-- The value of a hexadecimal digit. -/
def hexDigit? (c : Char) : Option Nat :=
  if '0' ≤ c ∧ c ≤ '9' then some (c.toNat - '0'.toNat)
  else if 'a' ≤ c ∧ c ≤ 'f' then some (c.toNat - 'a'.toNat + 10)
  else if 'A' ≤ c ∧ c ≤ 'F' then some (c.toNat - 'A'.toNat + 10)
  else none

/-- The character with a given code, unless the code is none. -/
def charOfCode? (code : Nat) : Option Char :=
  if code.isValidChar then some (Char.ofNat code) else none

namespace Text

/-- The character that a letter stands for behind a backslash. -/
def escaped? (c : Char) : Option Char :=
  match c with
  | 'b' => some '\x08'
  | 't' => some '\t'
  | 'n' => some '\n'
  | 'f' => some '\x0c'
  | 'r' => some '\r'
  | 'e' => some '\x1b'
  | '"' => some '"'
  | '\\' => some '\\'
  | _ => none

/-- How many digits the code has that a letter announces behind a backslash, less one. -/
def codeLength? (c : Char) : Option Nat :=
  match c with
  | 'x' => some 1
  | 'u' => some 3
  | 'U' => some 7
  | _ => none

/-- Whether a string ends at the quote that has just been read: the quotes that still belong to it
and what follows it. -/
def ending? (quote : Char) (multiline : Bool) (rest : List Char) :
    Option (List Char × List Char) :=
  if multiline then
    match ((rest.take 4).takeWhile (· == quote)).length with
    | 4 => some ([quote, quote], rest.drop 4)
    | 3 => some ([quote], rest.drop 3)
    | 2 => some ([], rest.drop 2)
    | _ => none
  else some ([], rest)

/-- Puts a character in front of a string that has been read. -/
def push (c : Char) (read : Option (List Char × List Char)) : Option (List Char × List Char) :=
  read.map fun (text, rest) ↦ (c :: text, rest)

/-- Whether a line may break at `c` with `rest` behind it. -/
def breaksLine (multiline : Bool) (c : Char) (rest : List Char) : Bool :=
  multiline && (c = '\n' || c = '\r' && rest.head? = some '\n')

/-- How the next character between double quotes is to be read: as content, where blanks and line
breaks may be swallowed first, behind a backslash, as a digit of a code with more of them missing,
or as one of the blanks between a backslash and the end of its line. -/
inductive Mode
  | content (swallowing : Bool)
  | escape
  | code (missing value : Nat)
  | blanks

/-- Reads the rest of a string in double quotes. -/
def basic (multiline : Bool) : Mode → List Char → Option (List Char × List Char)
  | _, [] => none
  | .content swallowing, c :: rest =>
    if c = '"' then
      match ending? '"' multiline rest with
      | some read => some read
      | none => push c (basic multiline (.content false) rest)
    else if c = '\\' then basic multiline .escape rest
    else if swallowing && (isSpace c || breaksLine multiline c rest) then
      basic multiline (.content true) rest
    else if isTextChar c || breaksLine multiline c rest then
      push c (basic multiline (.content false) rest)
    else none
  | .escape, c :: rest =>
    match escaped? c, codeLength? c with
    | some e, _ => push e (basic multiline (.content false) rest)
    | none, some missing => basic multiline (.code missing 0) rest
    | none, none =>
      if breaksLine multiline c rest then basic multiline (.content true) rest
      else if multiline && isSpace c then basic multiline .blanks rest
      else none
  | .code missing value, c :: rest =>
    match hexDigit? c with
    | none => none
    | some digit =>
      match missing with
      | missing + 1 => basic multiline (.code missing (value * 16 + digit)) rest
      | 0 =>
        match charOfCode? (value * 16 + digit) with
        | some e => push e (basic multiline (.content false) rest)
        | none => none
  | .blanks, c :: rest =>
    if breaksLine multiline c rest then basic multiline (.content true) rest
    else if isSpace c then basic multiline .blanks rest
    else none

/-- Reads the rest of a string in single quotes. -/
def literal (multiline : Bool) : List Char → Option (List Char × List Char)
  | [] => none
  | c :: rest =>
    if c = '\'' then
      match ending? '\'' multiline rest with
      | some read => some read
      | none => push c (literal multiline rest)
    else if isTextChar c || breaksLine multiline c rest then push c (literal multiline rest)
    else none

/-- Reads the rest of a string behind its opening quotes. -/
def body (quote : Char) (multiline : Bool) (cs : List Char) : Option (List Char × List Char) :=
  if quote = '"' then basic multiline (.content false) cs else literal multiline cs

/-- What follows a line break that stands in front. -/
def dropLineBreak : List Char → List Char
  | '\n' :: rest => rest
  | '\r' :: '\n' :: rest => rest
  | cs => cs

/-- Reads a string behind the first of its opening quotes. -/
def read? (quote : Char) (cs : List Char) : Option (String × List Char) :=
  let read :=
    if cs.take 2 = [quote, quote] then body quote true (dropLineBreak (cs.drop 2))
    else body quote false cs
  read.map fun (text, rest) ↦ (String.ofList text, rest)

end Text

end CommandScript.Toml
