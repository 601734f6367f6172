import TypeGraph.Definition.Basic
import TypeGraph.Node.Json

/-!
# Serialized definitions

A definition is an object with its node and its label, if it has one. A map of definitions is an
object with one entry a definition, in order; for a repeated key the first position and the last
value count. Entries of other names are ignored, whatever they hold.
-/

namespace TypeGraph

namespace Definition

def toJson (definition : Definition) : Json :=
  .object (("node", definition.node.toJson) ::
    (definition.label.map fun label => ("label", Json.string label)).toList)

/-- Decodes a definition that stands below `enclosing` open brackets. -/
def read (enclosing : Nat) (json : Json) : Except ReadError Definition := do
  match ← json.record ["node", "label"] with
  | [some node, label] =>
    return ⟨← Node.read (enclosing + 1) node, ← Json.asString? (label.map Subtype.val)⟩
  | _ => throw .malformed

def parse (text : String) : Except ReadError Definition := Json.parse (read 0) text

def print (definition : Definition) : String := definition.toJson.text

end Definition

namespace DefinitionMap

def toJson (definitions : DefinitionMap) : Json :=
  .object (definitions.entries.map fun entry => (entry.1, entry.2.toJson))

/-- Decodes a map of definitions that stands below `enclosing` open brackets. -/
def read (enclosing : Nat) : Json → Except ReadError DefinitionMap
  | .object entries => do
    let pairs ← entries.mapM fun (name, definition) =>
      return (name, ← Definition.read (enclosing + 1) definition)
    return OrderedMap.ofList pairs
  | _ => throw .malformed

def parse (text : String) : Except ReadError DefinitionMap := Json.parse (read 0) text

def print (definitions : DefinitionMap) : String := (toJson definitions).text

end DefinitionMap

namespace Extraction

def toJson (extraction : Extraction) : Json :=
  .object [("root", extraction.root.toJson), ("definitions", extraction.definitions.toJson)]

def read (json : Json) : Except ReadError Extraction := do
  match ← json.record ["root", "definitions"] with
  | [some root, some definitions] => return ⟨← Node.read 1 root, ← DefinitionMap.read 1 definitions⟩
  | _ => throw .malformed

def parse (text : String) : Except ReadError Extraction := Json.parse read text

def print (extraction : Extraction) : String := extraction.toJson.text

end Extraction

end TypeGraph
