/-!
# Quoted text

Text between double quotes. The quote, the backslash and the control characters below U+0020 are
escaped, five of those by a letter and the others by their number; everything else stands for
itself.
-/

namespace TypeGraph.Quoted

/-- The lower-case hexadecimal digit of a number below 16. -/
def hexDigit (n : Nat) : Char :=
  if n < 10 then Char.ofNat (48 + n) else Char.ofNat (87 + n)

/-- A character as it is written between quotes. -/
def escape (c : Char) : List Char :=
  if c = '"' then ['\\', '"']
  else if c = '\\' then ['\\', '\\']
  else if c = '\x08' then ['\\', 'b']
  else if c = '\t' then ['\\', 't']
  else if c = '\n' then ['\\', 'n']
  else if c = '\x0c' then ['\\', 'f']
  else if c = '\r' then ['\\', 'r']
  else if c.toNat < 32 then ['\\', 'u', '0', '0', hexDigit (c.toNat / 16), hexDigit (c.toNat % 16)]
  else [c]

def encode (text : List Char) : List Char := '"' :: text.flatMap escape ++ ['"']

/-- The text between quotes. -/
def quote (text : String) : String := String.ofList (encode text.toList)

end TypeGraph.Quoted
