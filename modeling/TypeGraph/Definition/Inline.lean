import TypeGraph.Definition.Graph

/-!
# Inlining

Definitions that cannot reach themselves can be put into the places that refer to them and dropped.
What remains is the recursive part of the graph.
-/

namespace TypeGraph.DefinitionMap

/-- The body of an acyclic definition with all acyclic references in it expanded in turn, to at
most `depth` levels; `none` for a cyclic or unknown identifier.

A chain of acyclic definitions has no repetition, so the number of definitions is depth enough. -/
def expand (definitions : DefinitionMap) : Nat → String → Option Node
  | 0, _ => none
  | depth + 1, identifier =>
    if definitions.isCyclic identifier then none
    else (definitions.node? identifier).map (Node.substitute (expand definitions depth))

/-- Puts all acyclic definitions in the place of the references to them. -/
def inlineInto (definitions : DefinitionMap) (node : Node) : Node :=
  node.substitute (definitions.expand definitions.size)

/-- Inlines all acyclic definitions into a root and into the definitions that stay. -/
def inlineAcyclic (definitions : DefinitionMap) (root : Node) : Extraction where
  root := definitions.inlineInto root
  definitions := (definitions.filterKeys definitions.isCyclic).mapValues fun definition =>
    { definition with node := definitions.inlineInto definition.node }

end TypeGraph.DefinitionMap
