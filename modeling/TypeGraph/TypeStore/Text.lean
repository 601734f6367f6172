import TypeGraph.TypeStore.Basic

/-!
# Rendering stored types

The text of a stored type, as labels and messages show it. A type with an alias or a name of its
own is written by that; everything else is written out, which has no end on a type that contains
itself without a name in between.
-/

namespace TypeGraph

namespace TypeFlag

def text : TypeFlag → String
  | booleanLiteral => "boolean"
  | flag => (flag.primitive?.map Primitive.name).getD ""

end TypeFlag

def RawLiteral.text : RawLiteral → String
  | string value => (Literal.string value).text
  | number value => (Literal.number value).text
  | bigint negative digits =>
    match Integer.ofParts? negative digits with
    | some n => (Literal.bigint n).text
    | none => digits ++ "n"

/-- The mark of a place that may be empty. -/
def optionalMark (optional : Bool) : String := if optional then "?" else ""

/-! ## One level

The text of a type, put together from a `rendering` of the types in it. -/

section

variable (rendering : TypeId → Option String)

/-- The texts of several types with a separator between them. -/
def textOfAll (separator : String) (types : List TypeId) : Option String :=
  (types.mapM rendering).map separator.intercalate

/-- A name with its arguments in angle brackets, if there are any. -/
def textOfGeneric (name : String) (arguments : List TypeId) : Option String :=
  match arguments with
  | [] => some name
  | arguments => do return name ++ "<" ++ (← textOfAll rendering ", " arguments) ++ ">"

def Signature.text (arrow : String) (signature : Signature) : Option String := do
  let parameters ← signature.parameters.mapM rendering
  let named := parameters.mapIdx fun i parameter => "args_" ++ toString i ++ ": " ++ parameter
  return "(" ++ ", ".intercalate named ++ ")" ++ arrow ++ " " ++ (← rendering signature.returns)

/-- A lone signature is written as a function type, all other members between braces. -/
def ObjectType.text (object : ObjectType) : Option String := do
  match object with
  | { properties := [], stringIndex := none, numberIndex := none, signatures := [signature] } =>
    signature.text rendering " =>"
  | { properties, stringIndex, numberIndex, signatures } =>
    let stringIndexes ← stringIndex.toList.mapM fun type =>
      return "[key: string]: " ++ (← rendering type) ++ ";"
    let numberIndexes ← numberIndex.toList.mapM fun type =>
      return "[key: number]: " ++ (← rendering type) ++ ";"
    let signatures ← signatures.mapM fun signature =>
      return (← signature.text rendering ":") ++ ";"
    let properties ← properties.mapM fun property =>
      return property.name ++ optionalMark property.optional ++ ": "
        ++ (← rendering property.type) ++ ";"
    match stringIndexes ++ numberIndexes ++ signatures ++ properties with
    | [] => return "\x7b\x7d"
    | members => return "\x7b " ++ " ".intercalate members ++ " \x7d"

/-- The text of a type that has no name, from its structure. -/
def TypeData.text (symbol : Option String) : TypeData → Option String
  | declared => some "unknown"
  | intrinsic flag => some flag.text
  | literal value => some value.text
  | boolean value => some (if value then "true" else "false")
  | object members => members.text rendering
  | tuple elements => do
    let slots ← elements.mapM fun element =>
      return (← rendering element.type) ++ optionalMark element.optional
    return "[" ++ ", ".intercalate slots ++ "]"
  | reference arguments =>
    match symbol, arguments with
    | some "Array", [element] => do return (← rendering element) ++ "[]"
    | symbol, arguments => textOfGeneric rendering (symbol.getD "unknown") arguments
  | union members => textOfAll rendering " | " members
  | intersection members => textOfAll rendering " & " members

/-- The text of a stored type: by alias, by its own name, or from its structure. -/
def TypeEntry.text (entry : TypeEntry) : Option String :=
  match entry.aliased, entry.symbol, entry.data with
  | some (name, arguments), _, _ => textOfGeneric rendering name arguments
  | none, symbol, .reference arguments => TypeData.text rendering symbol (.reference arguments)
  | none, some name, data =>
    if name = TypeStore.anonymous then data.text rendering (some name) else some name
  | none, none, data => data.text rendering none

end

namespace TypeStore

/-- The text of a stored type from at most `depth` levels of types inside types. -/
def textWithin (store : TypeStore) : Nat → TypeId → Option String
  | 0, _ => none
  | depth + 1, id => (store.entry id).text (textWithin store depth)

/-- The text of a stored type; `none` if it contains itself without a name in between.

Stored types inside each other without repetition are at most as many levels as there are types, and
an id without a type ends the last one. -/
def text (store : TypeStore) (id : TypeId) : Option String := store.textWithin (store.size + 1) id

/-- The store as a checker. -/
def checker (store : TypeStore) : Checker := ⟨store.size, store.describe, store.text⟩

end TypeStore

end TypeGraph
