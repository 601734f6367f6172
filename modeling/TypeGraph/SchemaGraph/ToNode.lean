import TypeGraph.Node.Optional
import TypeGraph.Registry
import TypeGraph.SchemaGraph.Basic

/-!
# Importing schemas

`SchemaGraph.toExtraction` reads a schema back into a node. Each lazy becomes one definition, named
after it, so a lazy that refers to itself becomes a definition that does.
-/

namespace TypeGraph.SchemaGraph

/-- An import collects definitions by the lazies that they come from. -/
abbrev Import := ExceptT Halt (StateM (Registry LazyId))

/-- Imports a schema, to at most `depth` levels of schemas inside schemas. -/
def importWithin (graph : SchemaGraph) : Nat → SchemaId → Import Node
  | 0, _ => throw .endless
  | depth + 1, id =>
    let visit := importWithin graph depth
    match graph.get id with
    | .primitive p => pure (.primitive p)
    | .literal value => pure (.literal value)
    | .array element => return .array (← visit element)
    | .set element => return .set (← visit element)
    | .record key value => return .record (← visit key) (← visit value)
    | .map key value => return .map (← visit key) (← visit value)
    | .object properties =>
      return .objectOf (← properties.entries.mapM fun property =>
        return (property.1, ← visit property.2))
    | .optional inner => return (← visit inner).optional
    | .union members => do orHalt (Node.unionOf (← members.mapM visit))
    | .tuple elements => do orHalt (Node.tupleOf (← elements.mapM visit))
    | .intersection members => do orHalt (Node.intersectionOf (← members.mapM visit))
    | .function parameters returns =>
      return .function (← parameters.mapM visit) (← returns.mapM visit)
    | .lazy slot =>
      Registry.intern slot (some (graph.lazyName slot)) do
        visit (← orHalt (graph.lazyTarget slot))

/-- The node of a schema with the definitions of the lazies that it leads to.

Between two lazies no schema comes twice on a path without end, and no lazy is entered twice, which
bounds the levels. -/
def toExtraction (graph : SchemaGraph) (root : SchemaId) : Except Halt Extraction :=
  let depth := (graph.lazies.size + 1) * (graph.size + 1)
  let (root, registry) := (graph.importWithin depth root).run.run .empty
  root.map fun root => ⟨root, registry.definitions⟩

end TypeGraph.SchemaGraph
