import TypeGraph.Literal.Json
import TypeGraph.Node.Basic

/-!
# Serialized types

A node is an object whose entry `typeName` names its kind, followed by the parts of the kind. A
missing return type or display name is left out; reading also takes `null` for it.
-/

namespace TypeGraph.Node

/-! ## Writing -/

/-- The object of a node of the kind with the given fields. -/
def tagged (kind : Kind) (fields : List (String × Json)) : Json :=
  .object (("typeName", .string kind.name) :: fields)

mutual

def toJson : Node → Json
  | primitive p => tagged (.primitive p) []
  | literal value => tagged .literal [("value", value.toJson)]
  | array element => tagged .array [("element", toJson element)]
  | set element => tagged .set [("element", toJson element)]
  | record key value => tagged .record [("key", toJson key), ("value", toJson value)]
  | map key value => tagged .map [("key", toJson key), ("value", toJson value)]
  | object shape => tagged .object [("shape", .object (shapeToJson shape))]
  | union first rest => tagged .union [("members", .array (toJson first :: allToJson rest))]
  | tuple first rest => tagged .tuple [("elements", .array (toJson first :: allToJson rest))]
  | intersection first rest =>
    tagged .intersection [("members", .array (toJson first :: allToJson rest))]
  | function parameters returns =>
    tagged .function (("parameters", .array (allToJson parameters)) :: returnsToJson returns)
  | reference identifier displayName =>
    tagged .reference (("identifier", .string identifier) ::
      (displayName.map fun name => ("displayName", .string name)).toList)

def shapeToJson : List (String × Node) → List (String × Json)
  | [] => []
  | (name, node) :: rest => (name, toJson node) :: shapeToJson rest

def allToJson : List Node → List Json
  | [] => []
  | node :: rest => toJson node :: allToJson rest

def returnsToJson : Option Node → List (String × Json)
  | none => []
  | some node => [("returns", toJson node)]

end

/-! ## Reading -/

/-- The names of the parts of a kind, in their order. -/
def fieldNames : Kind → List String
  | .primitive _ => []
  | .literal => ["value"]
  | .array | .set => ["element"]
  | .record | .map => ["key", "value"]
  | .object => ["shape"]
  | .union | .intersection => ["members"]
  | .tuple => ["elements"]
  | .function => ["parameters", "returns"]
  | .reference => ["identifier", "displayName"]

/-- The kind that a tag names. Inside another node the number of the kind names it as well. -/
def kindOfTag (nested : Bool) : Json → Except ReadError Kind
  | .string name => (Kind.ofName? name).elim (throw .malformed) pure
  | .number numeral =>
    match nested, numeral.natural? with
    | true, some n => (Kind.all[n]?).elim (throw .malformed) pure
    | _, _ => throw .malformed
  | _ => throw .malformed

/-- The literal inside a node, where null may also have an empty object beside its name. -/
def literalOfJson : Json → Except ReadError Literal
  | .object [("null", .object [])] => pure .null
  | json => Literal.ofJson json

/-- A list with a first element. -/
def nonEmpty : List Node → Except ReadError (Node × List Node)
  | [] => throw .emptyMembers
  | first :: rest => pure (first, rest)

/-- The kind of a serialized node. -/
def kindOfJson (nested : Bool) : Json → Except ReadError Kind
  | .object entries => do
    match ← Json.entry "typeName" entries with
    | some tag => kindOfTag nested tag
    | none => throw .malformed
  | .array (tag :: _) => kindOfTag nested tag
  | _ => throw .malformed

/-- The kind of a serialized node and its parts, each if it is there. -/
def partsOfJson (nested : Bool) (json : Json) :
    Except ReadError (Kind × List (Option (Json.Part json))) := do
  let kind ← kindOfJson nested json
  let fields ← json.record ("typeName" :: fieldNames kind)
  return (kind, fields.tail)

mutual

/-- Decodes a node; `nested` says whether it stands inside another node. -/
def ofJson (nested : Bool) (json : Json) : Except ReadError Node := do
  match ← partsOfJson nested json with
  | (.primitive p, []) => pure (primitive p)
  | (.literal, [some value]) => return literal (← literalOfJson value)
  | (.array, [some element]) => return array (← ofJson true element)
  | (.set, [some element]) => return set (← ofJson true element)
  | (.record, [some key, some value]) => return record (← ofJson true key) (← ofJson true value)
  | (.map, [some key, some value]) => return map (← ofJson true key) (← ofJson true value)
  | (.object, [some shape]) => return objectOf (← shapeOfJson shape)
  | (.union, [some members]) =>
    let (first, rest) ← nonEmpty (← listOfJson members)
    return union first rest
  | (.tuple, [some elements]) =>
    let (first, rest) ← nonEmpty (← listOfJson elements)
    return tuple first rest
  | (.intersection, [some members]) =>
    let (first, rest) ← nonEmpty (← listOfJson members)
    return intersection first rest
  | (.function, [some parameters, none]) => return function (← listOfJson parameters) none
  | (.function, [some parameters, some ⟨.null, _⟩]) =>
    return function (← listOfJson parameters) none
  | (.function, [some parameters, some returns]) =>
    return function (← listOfJson parameters) (some (← ofJson true returns))
  | (.reference, [some identifier, displayName]) =>
    return reference (← identifier.1.asString) (← Json.asString? (displayName.map Subtype.val))
  | _ => throw .malformed
  termination_by sizeOf json

def shapeOfJson (json : Json) : Except ReadError (List (String × Node)) :=
  match json with
  | .object entries => propertiesOfJson entries
  | _ => throw .malformed
  termination_by sizeOf json

def propertiesOfJson (entries : List (String × Json)) : Except ReadError (List (String × Node)) :=
  match entries with
  | [] => pure []
  | (name, value) :: rest => return (name, ← ofJson true value) :: (← propertiesOfJson rest)
  termination_by sizeOf entries

def listOfJson (json : Json) : Except ReadError (List Node) :=
  match json with
  | .array elements => allOfJson elements
  | _ => throw .malformed
  termination_by sizeOf json

def allOfJson (elements : List Json) : Except ReadError (List Node) :=
  match elements with
  | [] => pure []
  | element :: rest => return (← ofJson true element) :: (← allOfJson rest)
  termination_by sizeOf elements

end

/-- Reads a node that stands in a document below `enclosing` open brackets. -/
def read (enclosing : Nat) (json : Json) : Except ReadError Node :=
  if json.decodable (Json.depthLimit - enclosing) then ofJson false json else throw .malformed

/-- The node that a text is the serialized form of. -/
def parse (text : String) : Except ReadError Node := Json.parse (read 0) text

/-- Reads a list of nodes, each as a document part of its own. -/
def readAll : List Json → Except ReadError (List Node)
  | [] => pure []
  | element :: rest => return (← read 1 element) :: (← readAll rest)

/-- The nodes of a text that is a non-empty array of them. -/
def parseMembers (text : String) : Except ReadError (Node × List Node) :=
  Json.parse (fun json => match json with
    | .array elements => do nonEmpty (← readAll elements)
    | _ => throw .malformed) text

/-- The serialized text of a node. -/
def print (node : Node) : String := node.toJson.text

end TypeGraph.Node
