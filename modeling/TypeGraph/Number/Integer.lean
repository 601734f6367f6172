import TypeGraph.Number.Digits

/-!
# Decimal text of integers

Integer literals have no bound, so they are plain integers. Their text is canonical: a minus sign
for negative ones and the digits without leading zeros, so zero is never negative. Reading is more
liberal and accepts leading zeros.
-/

namespace TypeGraph.Integer

/-- The integer of a sign and a digit string; the string holds digits alone and at least one. -/
def ofParts? (negative : Bool) (digits : String) : Option Int :=
  match Digits.ofText? digits with
  | some (d :: rest) =>
    let magnitude : Int := Digits.toNat (d :: rest)
    some (if negative then -magnitude else magnitude)
  | _ => none

/-- Reads decimal text with at most one minus sign in front. -/
def parse? (text : String) : Option Int :=
  match text.toList with
  | '-' :: digits => ofParts? true (String.ofList digits)
  | _ => ofParts? false text

/-- The digits of the absolute value. -/
def magnitude (n : Int) : String := Digits.text (Digits.ofNat n.natAbs)

def text (n : Int) : String := (if n < 0 then "-" else "") ++ magnitude n

end TypeGraph.Integer
