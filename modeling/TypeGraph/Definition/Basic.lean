import TypeGraph.Node.Basic
import TypeGraph.OrderedMap

/-!
# Definitions

Named and recursive types are kept outside the tree in a `DefinitionMap`, under identifiers and in
the order of their registration. A node points at one by `Node.reference`.
-/

namespace TypeGraph

/-- A named type. -/
structure Definition where
  node : Node
  /-- The name of the source type, such as `Tree<string>`. -/
  label : Option String

/-- Definitions by identifier, in the order of registration. -/
abbrev DefinitionMap := OrderedMap String Definition

/-- A type together with the definitions that it refers to. -/
structure Extraction where
  root : Node
  definitions : DefinitionMap

namespace DefinitionMap

/-- The body of a definition. -/
def node? (definitions : DefinitionMap) (identifier : String) : Option Node :=
  (definitions.get? identifier).map Definition.node

/-- Replaces the body of a definition and keeps its label; without the definition nothing
changes. -/
def setNode (definitions : DefinitionMap) (identifier : String) (node : Node) : DefinitionMap :=
  definitions.modify identifier fun definition => { definition with node }

/-- A reference to a definition, with its label as the display name. -/
def reference? (definitions : DefinitionMap) (identifier : String) : Option Node :=
  (definitions.get? identifier).map fun definition => .reference identifier definition.label

end DefinitionMap

end TypeGraph
