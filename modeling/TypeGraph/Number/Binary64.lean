import TypeGraph.Number.Digits

/-!
# Binary floating-point numbers

The numbers of number literals: signed magnitudes in the 64-bit binary floating format, with
infinities and not-a-number.

Every finite magnitude is a whole multiple of the least positive one, `2⁻¹⁰⁷⁴`, so magnitudes are
counted in that unit (`Binary64.units`) and all arithmetic is exact on naturals until one final
rounding (`Binary64.nearest`). A magnitude itself is kept as its place in the increasing list of
all magnitudes; neighbours in the format are neighbours in that list.
-/

namespace TypeGraph

/-- The number of magnitudes with one exponent: `2⁵²`. -/
def Binary64.runLength : Nat := 1 <<< 52

/-- A number in the 64-bit binary floating format. -/
structure Binary64 where
  negative : Bool
  /-- The place of the magnitude in the increasing list of magnitudes: `0` is zero, `1` the least
  positive one, `infinityOrdinal` infinity, and what lies above is not a number. -/
  ordinal : Nat
  ordinal_lt : ordinal < 2048 * Binary64.runLength
  deriving DecidableEq

namespace Binary64

/-! ## Magnitudes -/

/-- The place of infinity, after one run of subnormal magnitudes and 2046 runs of normal ones. -/
def infinityOrdinal : Nat := 2047 * runLength

/-- The value at a place, in units of `2⁻¹⁰⁷⁴`.

In the first two runs neighbours are one unit apart; in each later run the distance doubles. At
`infinityOrdinal` this is the first power of two beyond the format. -/
def unitsAt (ordinal : Nat) : Nat :=
  if ordinal < runLength then ordinal
  else (runLength + ordinal % runLength) <<< (ordinal / runLength - 1)

/-- The number of units in `1`. -/
def unitsPerOne : Nat := 1 <<< 1074

/-- The whole number nearest to `num / den`; of two equally near ones the even one. -/
def roundHalfEven (num den : Nat) : Nat :=
  let quotient := num / den
  let remainder := num % den
  if 2 * remainder < den ∨ (2 * remainder = den ∧ quotient % 2 = 0) then quotient
  else quotient + 1

/-- The place of the magnitude nearest to `num / den` units, ties going to the even place.

The quotient is brought below `2⁵³` by halving and rounded there once; the carry of a quotient that
rounds up to `2⁵³` leads into the next run by itself. What is too large is infinity. -/
def nearest (num den : Nat) : Nat :=
  let halvings := (num / den).log2 - 52
  min infinityOrdinal (halvings * runLength + roundHalfEven num (den <<< halvings))

theorem nearest_le (num den : Nat) : nearest num den ≤ infinityOrdinal := Nat.min_le_left _ _

/-! ## Numbers -/

def ofOrdinal (negative : Bool) (ordinal : Nat) (h : ordinal ≤ infinityOrdinal) : Binary64 :=
  ⟨negative, ordinal, Nat.lt_of_le_of_lt h (by decide)⟩

def zero : Binary64 := ofOrdinal false 0 (by decide)

def infinity (negative : Bool) : Binary64 := ofOrdinal negative infinityOrdinal (Nat.le_refl _)

/-- The one not-a-number that is ever made. -/
def nan : Binary64 := ⟨false, infinityOrdinal + runLength / 2, by decide⟩

def isNaN (x : Binary64) : Bool := infinityOrdinal < x.ordinal

def isInfinite (x : Binary64) : Bool := x.ordinal == infinityOrdinal

def isFinite (x : Binary64) : Bool := x.ordinal < infinityOrdinal

def isZero (x : Binary64) : Bool := x.ordinal == 0

/-- The magnitude of a finite number, in units of `2⁻¹⁰⁷⁴`. -/
def units (x : Binary64) : Nat := unitsAt x.ordinal

/-- The number nearest to `± num / den`. -/
def ofRatio (negative : Bool) (num den : Nat) : Binary64 :=
  ofOrdinal negative (nearest (num * unitsPerOne) den) (nearest_le _ _)

/-- The number nearest to `± significand · 10 ^ exponent`.

Beyond the bounds that are tested first the answer is infinity or zero whatever the digits are, and
the power of ten need not be formed. -/
def ofDecimal (negative : Bool) (significand : Nat) (exponent : Int) : Binary64 :=
  if significand = 0 then ofOrdinal negative 0 (by decide)
  -- `10³⁰⁹` exceeds every finite magnitude, and what is below `2 · 10⁻⁴⁰⁰` rounds to zero
  else if 309 ≤ exponent then infinity negative
  else if exponent + significand.log2 < -400 then ofOrdinal negative 0 (by decide)
  else if 0 ≤ exponent then ofRatio negative (significand * Digits.weight exponent.toNat) 1
  else ofRatio negative significand (Digits.weight (-exponent).toNat)

/-- Equality of numbers: not-a-number differs from everything, and the two zeros are equal. -/
def beq (x y : Binary64) : Bool :=
  !x.isNaN && !y.isNaN && (x == y || (x.isZero && y.isZero))

end Binary64

end TypeGraph
