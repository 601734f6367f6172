import TypeGraph.Definition.Basic
import TypeGraph.Node.References

/-!
# The graph of definitions

Definitions refer to each other through the references in their bodies. This module follows
references to a body, orders definitions behind what they refer to, and finds the ones that can
reach themselves.
-/

namespace TypeGraph.DefinitionMap

/-! ## Following references -/

/-- Follows at most `steps` references. -/
def follow (definitions : DefinitionMap) : Nat → Node → Except Error Node
  | 0, .reference identifier _ => throw (.unresolvedReference identifier)
  | steps + 1, .reference identifier _ =>
    match definitions.node? identifier with
    | some node => follow definitions steps node
    | none => throw (.unresolvedReference identifier)
  | _, node => pure node

/-- The first node that is no reference, following references from the given one.

A chain without repetition has at most as many references as there are definitions; one that goes
on after that never ends. -/
def resolve (definitions : DefinitionMap) (node : Node) : Except Error Node :=
  follow definitions (definitions.size + 1) node

/-! ## Neighbours -/

/-- The identifiers that the body of a definition refers to, each once, in order. -/
def referencesOf (definitions : DefinitionMap) (identifier : String) : List String :=
  match definitions.node? identifier with
  | some node => node.references
  | none => []

/-! ## Dependency order -/

/-- A step of the walk that orders definitions. -/
inductive Visit where
  /-- Come to a definition, and first to what it refers to. -/
  | enter (identifier : String)
  /-- Everything it refers to has been come to: write it down. -/
  | leave (identifier : String)

/-- Walks the remaining steps. `unseen` are the definitions that the walk has not come to. -/
def visitAll (definitions : DefinitionMap) (unseen : List String) : List Visit → List String
  | [] => []
  | .leave identifier :: rest => identifier :: visitAll definitions unseen rest
  | .enter identifier :: rest =>
    if h : identifier ∈ unseen then
      have : (unseen.erase identifier).length < unseen.length := by
        have := List.length_pos_of_mem h
        rw [List.length_erase_of_mem h]
        omega
      -- the identifier is left once everything that it refers to has been
      visitAll definitions (unseen.erase identifier)
        ((definitions.referencesOf identifier).map .enter ++ .leave identifier :: rest)
    else visitAll definitions unseen rest
  termination_by visits => (unseen.length, visits.length)

/-- The identifiers ordered so that each definition follows those it refers to, and otherwise as
registered. The definitions of a cycle come in the order in which the walk leaves them. -/
def dependencyOrder (definitions : DefinitionMap) : List String :=
  visitAll definitions definitions.keys (definitions.keys.map .enter)

/-! ## Cycles -/

/-- Everything that can be reached from the pending identifiers, where only those in `unseen` are
followed on; an identifier may occur several times. -/
def closure (definitions : DefinitionMap) (unseen : List String) : List String → List String
  | [] => []
  | identifier :: pending =>
    if h : identifier ∈ unseen then
      have : (unseen.erase identifier).length < unseen.length := by
        have := List.length_pos_of_mem h
        rw [List.length_erase_of_mem h]
        omega
      identifier ::
        closure definitions (unseen.erase identifier)
          (definitions.referencesOf identifier ++ pending)
    else identifier :: closure definitions unseen pending
  termination_by pending => (unseen.length, pending.length)

/-- The identifiers that can be reached from a definition through at least one reference. -/
def reachableFrom (definitions : DefinitionMap) (identifier : String) : List String :=
  closure definitions definitions.keys (definitions.referencesOf identifier)

/-- Whether a definition can reach itself through references. -/
def isCyclic (definitions : DefinitionMap) (identifier : String) : Bool :=
  definitions.contains identifier && (definitions.reachableFrom identifier).contains identifier

/-- The definitions that can reach themselves, in the order of registration. -/
def cyclicIdentifiers (definitions : DefinitionMap) : List String :=
  definitions.keys.filter definitions.isCyclic

end TypeGraph.DefinitionMap
