import TypeGraph.Number.Binary64

/-!
# Numerals

A `Numeral` is the written form of a number: `-12.50e+3` and not its value. Printing and reading
keep it as it is; `Numeral.value?` and `Numeral.nearest` say which binary number it stands for.
-/

namespace TypeGraph

/-- A decimal numeral: sign, digits before and after the point, and the power of ten. -/
structure Numeral where
  negative : Bool
  whole : List Digit
  /-- Digits after the point; with none there is no point. -/
  fraction : List Digit
  /-- The written power of ten, if one is written. -/
  exponent : Option Int
  deriving DecidableEq

namespace Numeral

def ofNat (n : Nat) : Numeral := ⟨false, Digits.ofNat n, [], none⟩

/-- The text of a numeral. The sign of a written exponent is always there. -/
def text (n : Numeral) : String :=
  (if n.negative then "-" else "") ++ Digits.text n.whole
    ++ (if n.fraction.isEmpty then "" else "." ++ Digits.text n.fraction)
    ++ (match n.exponent with
        | none => ""
        | some e => (if e < 0 then "e-" else "e+") ++ Digits.text (Digits.ofNat e.natAbs))

/-- The natural number that the numeral writes out, if it has neither sign, fraction nor power. -/
def natural? (n : Numeral) : Option Nat :=
  if n.negative || !n.fraction.isEmpty || n.exponent.isSome then none
  else some (Digits.toNat n.whole)

/-! ## The nearest number -/

/-- The binary number nearest to the decimal value. -/
def nearest (n : Numeral) : Binary64 :=
  .ofDecimal n.negative (Digits.toNat (n.whole ++ n.fraction))
    (n.exponent.getD 0 - n.fraction.length)

/-! ## The value in a document

Numerals of a document are read with a significand of 64 bits and one rounded scaling by a power
of ten, which is exact for short numerals and may miss the nearest number for long ones. -/

/-- Takes digits into a 64-bit significand while they fit; answers how many digits are left over. -/
def absorb (significand : Nat) : List Digit → Nat × Nat
  | [] => (significand, 0)
  | d :: rest =>
    if 10 * significand + d.val < 1 <<< 64 then absorb (10 * significand + d.val) rest
    else (significand, rest.length + 1)

/-- The place of the power of ten in the list of magnitudes. -/
def powerOfTen (exponent : Nat) : Nat :=
  Binary64.nearest (Digits.weight exponent * Binary64.unitsPerOne) 1

/-- Divides by a power of ten, in steps of at most `10³⁰⁸` that are each rounded. -/
def divideByPower (ordinal exponent : Nat) : Nat :=
  if ordinal = 0 then 0
  else if h : exponent ≤ 308 then
    Binary64.nearest (Binary64.unitsAt ordinal * Binary64.unitsPerOne)
      (Binary64.unitsAt (powerOfTen exponent))
  else
    divideByPower
      (Binary64.nearest (Binary64.unitsAt ordinal * Binary64.unitsPerOne)
        (Binary64.unitsAt (powerOfTen 308)))
      (exponent - 308)
  termination_by exponent

/-- Multiplies by a power of ten; a product beyond the format is infinity. -/
def multiplyByPower (ordinal exponent : Nat) : Nat :=
  if ordinal = 0 then 0
  else if 308 < exponent then Binary64.infinityOrdinal
  else
    Binary64.nearest (Binary64.unitsAt ordinal * Binary64.unitsAt (powerOfTen exponent))
      Binary64.unitsPerOne

/-- The value of a numeral in a document; a magnitude beyond the format has none. -/
def value? (n : Numeral) : Option Binary64 :=
  let (whole, wholeLeft) := absorb 0 n.whole
  let (significand, fractionLeft) := absorb whole n.fraction
  -- whole digits left over count as places, fraction digits taken in as places after the point
  let scale : Int := n.exponent.getD 0 + wholeLeft - (n.fraction.length - fractionLeft : Nat)
  let unscaled := Binary64.nearest (significand * Binary64.unitsPerOne) 1
  let ordinal :=
    if 0 ≤ scale then multiplyByPower unscaled scale.toNat
    else divideByPower unscaled (-scale).toNat
  if h : ordinal < Binary64.infinityOrdinal then
    some (.ofOrdinal n.negative ordinal (Nat.le_of_lt h))
  else none

end Numeral

end TypeGraph
