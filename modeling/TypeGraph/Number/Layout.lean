import TypeGraph.Number.Numeral
import TypeGraph.Number.Shortest

/-!
# Layout of shortest digits

How a text form writes the shortest digits of a number: which exponents are written without a power
of ten, whether a whole number keeps a fraction, and what becomes of the sign of zero. A text form
is one `Layout` value, kept in the module that writes the form.
-/

namespace TypeGraph

/-- The choices of a text form for finite numbers. -/
structure Layout where
  tie : Tie
  /-- The least exponent written without a power of ten. -/
  leastPlain : Int
  /-- The greatest exponent written without a power of ten. -/
  greatestPlain : Int
  /-- Whether a whole number without a power of ten gets the fraction `.0`. -/
  wholeFraction : Bool
  /-- Whether zero keeps its sign. -/
  signedZero : Bool

namespace Layout

/-- Digits and exponent without a power of ten: zeros fill the places up to the point. -/
def plain (layout : Layout) (negative : Bool) (s : Scientific) : Numeral :=
  if s.exponent < 0 then
    ⟨negative, [.zero], List.replicate ((-s.exponent).toNat - 1) .zero ++ s.digits, none⟩
  else
    let places := s.exponent.toNat + 1
    let fraction := s.digits.drop places
    ⟨negative, s.digits.take places ++ List.replicate (places - s.digits.length) .zero,
      if fraction.isEmpty && layout.wholeFraction then [.zero] else fraction, none⟩

/-- Digits and exponent with a power of ten: one digit stands before the point. -/
def scientific (negative : Bool) (s : Scientific) : Numeral :=
  ⟨negative, s.digits.take 1, s.digits.drop 1, some s.exponent⟩

/-- The numeral of given digits: plain in the range of the layout, with a power of ten outside. -/
def ofScientific (layout : Layout) (negative : Bool) (s : Scientific) : Numeral :=
  if layout.leastPlain ≤ s.exponent && s.exponent ≤ layout.greatestPlain then
    layout.plain negative s
  else scientific negative s

/-- The numeral of a finite number. -/
def numeral (layout : Layout) (x : Binary64) : Numeral :=
  if x.isZero then
    ⟨x.negative && layout.signedZero, [.zero], if layout.wholeFraction then [.zero] else [], none⟩
  else layout.ofScientific x.negative (x.shortest layout.tie)

end Layout

end TypeGraph
