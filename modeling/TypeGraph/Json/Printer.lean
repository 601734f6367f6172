import TypeGraph.Json.Basic
import TypeGraph.Text.Quoted

/-!
# Compact JSON text

Printing without any space. Every value has a text that reads back as the value.
-/

namespace TypeGraph.Json

mutual

def chars : Json → List Char
  | null => "null".toList
  | bool b => (if b then "true" else "false").toList
  | number numeral => numeral.text.toList
  | string text => Quoted.encode text.toList
  | array [] => "[]".toList
  | array (first :: rest) => '[' :: chars first ++ charsOfElements rest ++ [']']
  | object [] => "\x7b\x7d".toList
  | object ((key, value) :: rest) =>
    '{' :: Quoted.encode key.toList ++ ':' :: chars value ++ charsOfEntries rest ++ ['}']
  | unpaired => "\"\\ud800\"".toList

/-- Further elements, each after a comma. -/
def charsOfElements : List Json → List Char
  | [] => []
  | element :: rest => ',' :: chars element ++ charsOfElements rest

/-- Further entries, each after a comma. -/
def charsOfEntries : List (String × Json) → List Char
  | [] => []
  | (key, value) :: rest =>
    ',' :: Quoted.encode key.toList ++ ':' :: chars value ++ charsOfEntries rest

end

def text (json : Json) : String := String.ofList json.chars

end TypeGraph.Json
