import TypeGraph.Number.Numeral

/-!
# Reading numerals

The grammar of numerals: an optional minus sign, digits without leading zeros, a fraction of at
least one digit, and a power of ten with an optional sign.
-/

namespace TypeGraph

namespace Digits

/-- The digits at the start of a text and what follows them. -/
def span : List Char → List Digit × List Char
  | [] => ([], [])
  | c :: rest =>
    match Digit.ofChar? c with
    | some d => (d :: (span rest).1, (span rest).2)
    | none => ([], c :: rest)

end Digits

namespace Numeral

/-- A sign at the start of a text, and what follows it. -/
def spanSign : List Char → Bool × List Char
  | '-' :: rest => (true, rest)
  | rest => (false, rest)

/-- The power of ten at the end of a numeral: nothing, or `e` with an optional sign and digits. -/
def exponent? : List Char → Option (Option Int)
  | [] => some none
  | mark :: rest =>
    if mark != 'e' && mark != 'E' then none
    else
      let (negative, unsigned) := match rest with
        | '+' :: rest => (false, rest)
        | rest => spanSign rest
      match Digits.span unsigned with
      | (d :: digits, []) =>
        let magnitude : Int := Digits.toNat (d :: digits)
        some (some (if negative then -magnitude else magnitude))
      | _ => none

/-- The numeral that a whole text is. -/
def ofChars? (text : List Char) : Option Numeral :=
  let (negative, unsigned) := spanSign text
  match Digits.span unsigned with
  | ([], _) => none
  | (0 :: _ :: _, _) => none
  | (whole, '.' :: rest) =>
    match Digits.span rest with
    | ([], _) => none
    | (fraction, rest) => (exponent? rest).map fun exponent => ⟨negative, whole, fraction, exponent⟩
  | (whole, rest) => (exponent? rest).map fun exponent => ⟨negative, whole, [], exponent⟩

end Numeral

namespace Binary64

/-- The number nearest to a numeral, or one of the numbers that have a name. -/
def ofText? (text : String) : Option Binary64 :=
  match text with
  | "NaN" => some nan
  | "Infinity" => some (infinity false)
  | "-Infinity" => some (infinity true)
  | _ => (Numeral.ofChars? text.toList).map Numeral.nearest

end Binary64

end TypeGraph
