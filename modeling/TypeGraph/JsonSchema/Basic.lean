import TypeGraph.Json.Printer
import TypeGraph.SchemaGraph.Basic

/-!
# JSON Schema

The JSON Schemas that types are written as, and their text. A deferred schema of the graph that a
JSON Schema is written for is a reference into the `$defs` of the document around it, so the text
depends on the names of the lazies.
-/

namespace TypeGraph

/-- A JSON Schema over the lazies of a graph. -/
inductive JsonSchema where
  /-- Any value. -/
  | anything
  /-- No value. -/
  | nothing
  | type (name : String)
  | const (value : Json)
  | array (items : JsonSchema) (unique : Bool)
  /-- Objects with a schema for all values, and one for all names unless any name will do. -/
  | record (names : Option JsonSchema) (values : JsonSchema)
  /-- Objects with the named properties, of which some are required. -/
  | object (properties : List (String × JsonSchema)) (required : List String)
  /-- Arrays of at most the given items and at least `least` of them. -/
  | tuple (items : List JsonSchema) (least : Nat)
  | anyOf (members : List JsonSchema)
  | allOf (members : List JsonSchema)
  /-- What the entry of a lazy in `$defs` says. -/
  | ref (slot : LazyId)

namespace JsonSchema

/-! ## Text -/

/-- The name of an entry inside a pointer: `~` and `/` are escaped. -/
def pointerChars (name : List Char) : List Char :=
  name.flatMap fun c => if c = '~' then ['~', '0'] else if c = '/' then ['~', '1'] else [c]

/-- The pointer to an entry of `$defs`. -/
def pointer (name : String) : String :=
  "#/$defs/" ++ String.ofList (pointerChars name.toList)

mutual

/-- The JSON object of a schema, for given names of the lazies. -/
def toJson (nameOf : LazyId → String) : JsonSchema → List (String × Json)
  | anything => []
  | nothing => [("not", .object [])]
  | type name => [("type", .string name)]
  | const value => [("const", value)]
  | array items unique =>
    [("type", .string "array"), ("items", .object (toJson nameOf items))]
      ++ (if unique then [("uniqueItems", .bool true)] else [])
  | record names values =>
    ("type", .string "object") :: (namesToJson nameOf names
      ++ [("additionalProperties", .object (toJson nameOf values))])
  | object properties required =>
    [("type", .string "object"), ("properties", .object (propertiesToJson nameOf properties))]
      ++ (if required.isEmpty then [] else [("required", .array (required.map .string))])
  | tuple items least =>
    [("type", .string "array"), ("prefixItems", .array (allToJson nameOf items)),
      ("items", .bool false), ("minItems", .ofNat least)]
  | anyOf members => [("anyOf", .array (allToJson nameOf members))]
  | allOf members => [("allOf", .array (allToJson nameOf members))]
  | ref slot => [("$ref", .string (pointer (nameOf slot)))]

def allToJson (nameOf : LazyId → String) : List JsonSchema → List Json
  | [] => []
  | schema :: rest => .object (toJson nameOf schema) :: allToJson nameOf rest

def propertiesToJson (nameOf : LazyId → String) : List (String × JsonSchema) → List (String × Json)
  | [] => []
  | (name, schema) :: rest =>
    (name, .object (toJson nameOf schema)) :: propertiesToJson nameOf rest

def namesToJson (nameOf : LazyId → String) : Option JsonSchema → List (String × Json)
  | none => []
  | some schema => [("propertyNames", .object (toJson nameOf schema))]

end

/-! ## References -/

mutual

/-- The lazies that a schema refers to, in the order of its text. -/
def references : JsonSchema → List LazyId
  | anything | nothing | type _ | const _ => []
  | array items _ => references items
  | record names values => referencesInOption names ++ references values
  | object properties _ => referencesInProperties properties
  | tuple items _ | anyOf items | allOf items => referencesInAll items
  | ref slot => [slot]

def referencesInAll : List JsonSchema → List LazyId
  | [] => []
  | schema :: rest => references schema ++ referencesInAll rest

def referencesInProperties : List (String × JsonSchema) → List LazyId
  | [] => []
  | (_, schema) :: rest => references schema ++ referencesInProperties rest

def referencesInOption : Option JsonSchema → List LazyId
  | none => []
  | some schema => references schema

end

end JsonSchema

end TypeGraph
