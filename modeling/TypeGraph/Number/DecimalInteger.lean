/-!
# Integers in decimal form

An integer literal is kept as a sign and the digits of its magnitude, of which there may be any
number. The form is normal: no zero stands in front of another digit, and zero has no sign.
-/

namespace TypeGraph

/-- An integer as its sign and the digits of its magnitude. -/
structure DecimalInteger where
  negative : Bool
  magnitude : String
  deriving DecidableEq

namespace DecimalInteger

/-- The integer of a sign and a digit string; the string holds digits alone and at least one. -/
def ofParts? (negative : Bool) (digits : String) : Option DecimalInteger :=
  if digits.toList.isEmpty || !digits.toList.all Char.isDigit then none
  else
    let trimmed := digits.toList.dropWhile (· == '0')
    let magnitude := if trimmed.isEmpty then "0" else String.ofList trimmed
    some { negative := negative && magnitude != "0", magnitude }

/-- Reads decimal text with at most one minus sign in front. -/
def parse? (text : String) : Option DecimalInteger :=
  match text.toList with
  | '-' :: digits => ofParts? true (String.ofList digits)
  | _ => ofParts? false text

/-- A machine integer. The least one has no positive counterpart among them, so the magnitude is a
machine integer without a sign. -/
def ofInt64 (n : Int64) : DecimalInteger where
  negative := n < 0
  magnitude := toString n.abs.toUInt64

def text (n : DecimalInteger) : String := (if n.negative then "-" else "") ++ n.magnitude

/-- The number that a sign and the magnitude behind it stand for. -/
def signed (negative : Bool) (magnitude : Nat) : Int := if negative then -magnitude else magnitude

def value (n : DecimalInteger) : Int := signed n.negative (Nat.ofDigitChars 10 n.magnitude.toList 0)

end DecimalInteger

end TypeGraph
