import TypeGraph.Number.Binary64

/-!
# Shortest decimal digits

The fewest decimal digits from which a binary number can be recovered by rounding to the nearest
one, and of those the ones nearest to the number.

The reals that round to a magnitude form the interval between the midpoints to its two neighbours,
ends included if its place is even. For one digit, two digits and so on the two multiples of the
digit's weight around the magnitude are tested against that interval; the first count with a hit
wins. All comparisons are between naturals.
-/

namespace TypeGraph

/-- What to do if two shortest decimals are equally near. -/
inductive Tie where
  | toEven
  | up
  deriving DecidableEq

/-- The decimal `d.ddd… · 10 ^ exponent`; its first digit is not zero, nor the last of several. -/
structure Scientific where
  digits : List Digit
  exponent : Int
  deriving DecidableEq

namespace Binary64

/-- Whether `multiple · num / den` units round to the magnitude at `ordinal`.

Twice the midpoints to the neighbours are whole numbers of units. -/
def readsBack (ordinal multiple num den : Nat) : Bool :=
  let point := 2 * multiple * num
  let low := (unitsAt (ordinal - 1) + unitsAt ordinal) * den
  let high := (unitsAt ordinal + unitsAt (ordinal + 1)) * den
  if ordinal % 2 = 0 then low ≤ point && point ≤ high else low < point && point < high

/-- The multiple of `num / den` units nearest to a magnitude, among its two neighbours that read
back as it; `none` if neither does. -/
def nearestReading (tie : Tie) (ordinal num den : Nat) : Option Nat :=
  let below := unitsAt ordinal * den / num
  match readsBack ordinal below num den, readsBack ordinal (below + 1) num den with
  | false, false => none
  | true, false => some below
  | false, true => some (below + 1)
  | true, true =>
    -- both distances over the common denominator `den`
    let fromBelow := unitsAt ordinal * den - below * num
    let toAbove := (below + 1) * num - unitsAt ordinal * den
    if fromBelow < toAbove then some below
    else if toAbove < fromBelow then some (below + 1)
    else match tie with
      | .up => some (below + 1)
      | .toEven => some (if below % 2 = 0 then below else below + 1)

/-- The power of ten at or below a positive magnitude.

All magnitudes exceed `10⁻⁴⁰⁰`, so counting the digits of the whole part of `10⁴⁰⁰` times the
magnitude finds it. -/
def decimalExponent (ordinal : Nat) : Int :=
  (Digits.ofNat (unitsAt ordinal * Digits.weight 400 / unitsPerOne)).length - 401

/-- The first digit count, from `count` on, at which a decimal reads back, with that decimal; the
last resort is seventeen digits, where one always does. -/
def shortestFrom (tie : Tie) (ordinal : Nat) (exponent : Int) (count : Nat) : Nat → Scientific
  | 0 => ⟨[Digit.zero], 0⟩
  | tries + 1 =>
    let place : Int := exponent - count + 1
    let num := Digits.weight place.toNat * unitsPerOne
    let den := Digits.weight (-place).toNat
    match nearestReading tie ordinal num den with
    | some multiple =>
      let digits := Digits.ofNat multiple
      ⟨Digits.trimRight digits, place + digits.length - 1⟩
    | none => shortestFrom tie ordinal exponent (count + 1) tries

/-- The shortest decimal that reads back as the magnitude of a finite number other than zero. -/
def shortest (tie : Tie) (x : Binary64) : Scientific :=
  shortestFrom tie x.ordinal (decimalExponent x.ordinal) 1 17

end Binary64

end TypeGraph
