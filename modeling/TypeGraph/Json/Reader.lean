import TypeGraph.Json.Token

/-!
# Reading JSON text

The tokens of a document are read in one pass with a stack of the brackets that are still open. A
finished value goes into the innermost open bracket, or is the document if none is open.
-/

namespace TypeGraph.Json

/-- An open bracket with what it holds so far, in reverse. -/
inductive Frame where
  | array (elements : List Json)
  /-- An open brace whose next entry has its key already. -/
  | object (entries : List (Option String × Json)) (key : Option String)

/-- The object of entries; without decodable keys it has no decodable value. -/
def objectOfEntries (entries : List (Option String × Json)) : Json :=
  match entries.mapM fun entry => entry.1.map fun key => (key, entry.2) with
  | some entries => object entries
  | none => unpaired

mutual

/-- Reads a value and the rest of the document after it. -/
def readValue (stack : List Frame) : List Token → Option Json
  | .scalar value :: rest => readAfter value stack rest
  | .string (some text) :: rest => readAfter (string text) stack rest
  | .string none :: rest => readAfter unpaired stack rest
  | .openBracket :: .closeBracket :: rest => readAfter (array []) stack rest
  | .openBracket :: rest => readValue (.array [] :: stack) rest
  | .openBrace :: .closeBrace :: rest => readAfter (object []) stack rest
  | .openBrace :: .string key :: .colon :: rest => readValue (.object [] key :: stack) rest
  | _ => none

/-- Puts a finished value into the innermost open bracket and reads on. -/
def readAfter (value : Json) : List Frame → List Token → Option Json
  | [], [] => some value
  | .array elements :: stack, .comma :: rest =>
    readValue (.array (value :: elements) :: stack) rest
  | .array elements :: stack, .closeBracket :: rest =>
    readAfter (array (value :: elements).reverse) stack rest
  | .object entries key :: stack, .comma :: .string next :: .colon :: rest =>
    readValue (.object ((key, value) :: entries) next :: stack) rest
  | .object entries key :: stack, .closeBrace :: rest =>
    readAfter (objectOfEntries ((key, value) :: entries).reverse) stack rest
  | _, _ => none

end

/-- The document that a text is, if it is one. -/
def ofText? (text : String) : Option Json := do
  readValue [] (← Token.scan .between text.toList)

end TypeGraph.Json
