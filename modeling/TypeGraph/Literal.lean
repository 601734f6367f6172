import TypeGraph.Number.Integer
import TypeGraph.Number.Layout
import TypeGraph.Text.Quoted

/-!
# Literals

The values of literal types and the one text in which all emitted code writes them.
-/

namespace TypeGraph

/-- The value of a literal type. -/
inductive Literal where
  | string (value : String)
  | number (value : Binary64)
  | boolean (value : Bool)
  | bigint (value : Int)
  | null
  deriving DecidableEq

namespace Literal

/-- Equality of values: numbers compare as numbers, so `-0` equals `0` and not-a-number nothing. -/
def beq : Literal → Literal → Bool
  | number x, number y => x.beq y
  | a, b => a == b

/-- The kind of value, as messages name it. -/
def kindName : Literal → String
  | string _ => "string literal"
  | number _ => "number literal"
  | boolean _ => "boolean literal"
  | bigint _ => "bigint literal"
  | null => "null literal"

/-! ## Source text -/

/-- Source text writes numbers plainly from `1e-6` up to below `1e21`, whole ones without a point,
and zero without a sign; an exact half between two shortest decimals goes up. -/
def numberLayout : Layout where
  tie := .up
  leastPlain := -6
  greatestPlain := 20
  wholeFraction := false
  signedZero := false

def numberText (x : Binary64) : String :=
  if x.isNaN then "NaN"
  else if x.isInfinite then (if x.negative then "-Infinity" else "Infinity")
  else (numberLayout.numeral x).text

/-- A literal as source text. -/
def text : Literal → String
  | string s => Quoted.quote s
  | number x => numberText x
  | boolean b => if b then "true" else "false"
  | bigint n => Integer.text n ++ "n"
  | null => "null"

end Literal

end TypeGraph
