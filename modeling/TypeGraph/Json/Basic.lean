import TypeGraph.Number.Layout

/-!
# JSON documents

A JSON value as it is written: numerals keep their digits and objects all their entries, repeated
keys included. What a numeral or an entry means is decided by whoever decodes the value.
-/

namespace TypeGraph

inductive Json where
  | null
  | bool (value : Bool)
  | number (numeral : Numeral)
  | string (text : String)
  | array (elements : List Json)
  | object (entries : List (String × Json))
  /-- A string, or an object with a key, in which an escape names one half of a surrogate pair
  without the other. Its place in the document is good, but it has no characters to decode. -/
  | unpaired

namespace Json

instance : Inhabited Json := ⟨null⟩

def ofNat (n : Nat) : Json := number (.ofNat n)

/-- Documents write numbers plainly from `1e-5` up to below `1e16`, whole ones with the fraction
`.0`, and zero with its sign; an exact half between two shortest decimals goes to the even digit. -/
def numberLayout : Layout where
  tie := .toEven
  leastPlain := -5
  greatestPlain := 15
  wholeFraction := true
  signedZero := true

/-- A number in a document; infinities and not-a-number become `null`. -/
def ofBinary64 (x : Binary64) : Json :=
  if x.isFinite then number (numberLayout.numeral x) else null

/-! ## Decodable values -/

mutual

/-- Whether a value can be decoded whole: at most `depth` brackets are open at once, every string
has characters and every numeral a value. -/
def decodable (depth : Nat) : Json → Bool
  | null | bool _ | string _ => true
  | number numeral => numeral.value?.isSome
  | array elements => 0 < depth && allDecodable (depth - 1) elements
  | object entries => 0 < depth && entriesDecodable (depth - 1) entries
  | unpaired => false

def allDecodable (depth : Nat) : List Json → Bool
  | [] => true
  | element :: rest => decodable depth element && allDecodable depth rest

def entriesDecodable (depth : Nat) : List (String × Json) → Bool
  | [] => true
  | (_, value) :: rest => decodable depth value && entriesDecodable depth rest

end

end Json

end TypeGraph
