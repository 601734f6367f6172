/-!
# Decimal digits

Digit lists, most significant first, and the numbers they stand for.
-/

namespace TypeGraph

/-- A decimal digit. -/
abbrev Digit := Fin 10

namespace Digit

def zero : Digit := 0

def char (d : Digit) : Char := Char.ofNat (48 + d.val)

/-- The digit a character stands for: one of the ten from `0` to `9` and no other. -/
def ofChar? (c : Char) : Option Digit :=
  if h : 48 ≤ c.toNat ∧ c.toNat < 58 then some ⟨c.toNat - 48, by omega⟩ else none

end Digit

namespace Digits

/-- The weight of the digit that has `places` digits after it: `10 ^ places`. -/
def weight (places : Nat) : Nat := Nat.pow 10 places

/-- The number that a digit list stands for; no digits stand for zero. -/
def toNat (digits : List Digit) : Nat := digits.foldl (fun n d => 10 * n + d.val) 0

/-- The digits of a number, without leading zeros; zero has the one digit `0`. -/
def ofNat (n : Nat) : List Digit :=
  if h : n < 10 then [⟨n, h⟩]
  else ofNat (n / 10) ++ [⟨n % 10, Nat.mod_lt n (by decide)⟩]

def text (digits : List Digit) : String := String.ofList (digits.map Digit.char)

/-- The digits a text consists of, if it consists of digits alone. -/
def ofText? (text : String) : Option (List Digit) := text.toList.mapM Digit.ofChar?

/-- Without the zeros at the end. -/
def trimRight (digits : List Digit) : List Digit :=
  (digits.reverse.dropWhile (· == Digit.zero)).reverse

end Digits

end TypeGraph
