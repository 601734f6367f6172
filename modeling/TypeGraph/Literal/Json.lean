import TypeGraph.Json.Decode
import TypeGraph.Json.Printer
import TypeGraph.Literal

/-!
# Serialized literals

A literal is an object whose one key names its kind, or the bare string `null`. Integers are
strings of their decimal text, without bound.
-/

namespace TypeGraph

namespace Integer

def toJson (n : Int) : Json := .string (text n)

def ofJson (json : Json) : Except ReadError Int := do
  let text ← json.asString
  match parse? text with
  | some n => pure n
  | none => throw (.invalidInteger text)

end Integer

namespace Literal

def toJson : Literal → Json
  | string s => .object [("string", .string s)]
  | number x => .object [("number", .ofBinary64 x)]
  | boolean b => .object [("boolean", .bool b)]
  | bigint n => .object [("bigint", Integer.toJson n)]
  | null => .string "null"

def ofJson : Json → Except ReadError Literal
  | .string "null" => pure null
  | .object [("null", .null)] => pure null
  | .object [("string", value)] => return string (← value.asString)
  | .object [("number", .number numeral)] =>
    match numeral.value? with
    | some x => pure (number x)
    | none => throw .malformed
  | .object [("boolean", .bool b)] => pure (boolean b)
  | .object [("bigint", value)] => return bigint (← Integer.ofJson value)
  | _ => throw .malformed

end Literal

end TypeGraph
