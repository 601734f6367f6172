import TypeGraph.Json.Basic
import TypeGraph.Number.Reading

/-!
# Tokens of JSON text

`Token.scan` splits a text into tokens in one pass over its characters. Bare words, that is
numerals and the three named values, are collected up to the next delimiter and then looked at as a
whole. A string is collected with its escapes resolved to characters and halves of surrogate pairs;
the halves are joined at its end.
-/

namespace TypeGraph.Json

inductive Token where
  | openBracket
  | closeBracket
  | openBrace
  | closeBrace
  | colon
  | comma
  /-- A string, without characters if a surrogate half in it has no partner. -/
  | string (text : Option String)
  /-- A numeral, `true`, `false` or `null`. -/
  | scalar (value : Json)

/-! ## Strings -/

/-- What one character or one escape between quotes stands for. -/
inductive StringUnit where
  | char (c : Char)
  /-- Half of a character: a number from D800 to DFFF. -/
  | surrogate (half : Nat)

namespace StringUnit

/-- The unit that an escape by number names. -/
def ofNat (n : Nat) : StringUnit :=
  if 0xD800 ≤ n && n < 0xE000 then surrogate n else char (Char.ofNat n)

/-- Joins each first half with the second half right after it; `none` if a half is left alone. -/
def join : List StringUnit → Option (List Char)
  | [] => some []
  | char c :: rest => (join rest).map (c :: ·)
  | surrogate high :: surrogate low :: rest =>
    if high < 0xDC00 && 0xDC00 ≤ low then
      (join rest).map (Char.ofNat (0x10000 + (high - 0xD800) * 0x400 + (low - 0xDC00)) :: ·)
    else none
  | surrogate _ :: _ => none

end StringUnit

/-- The character that a one-letter escape stands for. -/
def escaped? : Char → Option Char
  | '"' => some '"'
  | '\\' => some '\\'
  | '/' => some '/'
  | 'b' => some '\x08'
  | 'f' => some '\x0c'
  | 'n' => some '\n'
  | 'r' => some '\r'
  | 't' => some '\t'
  | _ => none

def hexValue? (c : Char) : Option Nat :=
  if '0' ≤ c && c ≤ '9' then some (c.toNat - 48)
  else if 'a' ≤ c && c ≤ 'f' then some (c.toNat - 87)
  else if 'A' ≤ c && c ≤ 'F' then some (c.toNat - 55)
  else none

/-- The number of four hexadecimal digits. -/
def hexValue4? (a b c d : Char) : Option Nat := do
  return 0x1000 * (← hexValue? a) + 0x100 * (← hexValue? b) + 0x10 * (← hexValue? c)
    + (← hexValue? d)

/-- The value that a bare word stands for. -/
def scalar? (word : List Char) : Option Json :=
  if word = "null".toList then some null
  else if word = "true".toList then some (bool true)
  else if word = "false".toList then some (bool false)
  else (Numeral.ofChars? word).map number

/-! ## Scanning -/

namespace Token

def isSpace (c : Char) : Bool := c == ' ' || c == '\t' || c == '\n' || c == '\r'

def punctuation? : Char → Option Token
  | '[' => some openBracket
  | ']' => some closeBracket
  | '{' => some openBrace
  | '}' => some closeBrace
  | ':' => some colon
  | ',' => some comma
  | _ => none

/-- What the scanner is in the middle of; collected parts are in reverse. -/
inductive Mode where
  | between
  | word (collected : List Char)
  | text (collected : List StringUnit)

/-- Splits a text into tokens; `none` if it has a fault inside a token. -/
def scan : Mode → List Char → Option (List Token)
  | .between, [] => some []
  | .word collected, [] => (scalar? collected.reverse).map fun value => [scalar value]
  | .text _, [] => none
  -- between tokens: a quote opens a string, and what is no punctuation opens a word
  | .between, c :: rest =>
    if isSpace c then scan .between rest
    else if c = '"' then scan (.text []) rest
    else match punctuation? c with
      | some token => (scan .between rest).map (token :: ·)
      | none => scan (.word [c]) rest
  -- a word ends before the next space or punctuation
  | .word collected, c :: rest =>
    if isSpace c then do
      return scalar (← scalar? collected.reverse) :: (← scan .between rest)
    else match punctuation? c with
      | some token => do
        return scalar (← scalar? collected.reverse) :: token :: (← scan .between rest)
      | none => scan (.word (c :: collected)) rest
  -- a string ends at the next bare quote
  | .text collected, '"' :: rest =>
    let text := (StringUnit.join collected.reverse).map String.ofList
    (scan .between rest).map (string text :: ·)
  | .text collected, '\\' :: 'u' :: a :: b :: c :: d :: rest =>
    match hexValue4? a b c d with
    | some n => scan (.text (.ofNat n :: collected)) rest
    | none => none
  | .text collected, '\\' :: c :: rest =>
    match escaped? c with
    | some c => scan (.text (.char c :: collected)) rest
    | none => none
  | .text collected, c :: rest =>
    if c = '\\' || c.toNat < 32 then none else scan (.text (.char c :: collected)) rest

end Token

end TypeGraph.Json
