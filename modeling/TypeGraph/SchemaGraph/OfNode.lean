import TypeGraph.Definition.Basic
import TypeGraph.Node.Optional
import TypeGraph.SchemaGraph.Basic

/-!
# Building schemas

A `SchemaDraft` turns nodes into schemas of one graph. Each definition is built once, behind one
lazy: its handle is noted before its body is built, so that the body can refer to it. A build that
fails keeps what it has added by then, a lazy without a target included.
-/

namespace TypeGraph

/-- A graph in the making. -/
structure SchemaDraft where
  graph : SchemaGraph := {}
  /-- The schema of the lazy of each definition met so far. -/
  handles : OrderedMap String SchemaId := .empty

namespace SchemaDraft

/-- A build changes the draft, whether it succeeds or not. -/
abbrev Build := ExceptT Halt (StateM SchemaDraft)

def add (schema : Schema) : Build SchemaId :=
  modifyGet fun draft =>
    let (id, graph) := draft.graph.add schema
    (id, { draft with graph })

/-- Adds a lazy for a definition together with its schema, and notes that as the handle. -/
def addHandle (identifier : String) : Build (LazyId × SchemaId) :=
  modifyGet fun draft =>
    let (slot, graph) := draft.graph.addLazy identifier
    let (handle, graph) := graph.add (.lazy slot)
    ((slot, handle), ⟨graph, draft.handles.insert identifier handle⟩)

def fill (slot : LazyId) (target : SchemaId) : Build Unit :=
  modify fun draft => { draft with graph := draft.graph.fill slot target }

mutual

/-- Builds the schema of a node, entering definitions at most `depth` deep. -/
def buildWithin (definitions : DefinitionMap) (depth : Nat) (node : Node) : Build SchemaId :=
  match node with
  | .primitive p => add (.primitive p)
  | .literal value => add (.literal value)
  | .array element => do add (.array (← buildWithin definitions depth element))
  | .set element => do add (.set (← buildWithin definitions depth element))
  | .record key value => do
    let key ← buildWithin definitions depth key
    add (.record key (← buildWithin definitions depth value))
  | .map key value => do
    let key ← buildWithin definitions depth key
    add (.map key (← buildWithin definitions depth value))
  | .object shape => do
    add (.object (.ofList (← buildShape definitions depth shape)))
  | .union first [] => buildWithin definitions depth first
  | .union first rest =>
    match (Node.union first rest).presence with
    | .optional content _ => do add (.optional (← buildWithin definitions depth content))
    | .vacant => add (.primitive .undefined)
    | .required => do
      let first ← buildWithin definitions depth first
      add (.union (first :: (← buildAll definitions depth rest)))
  | .tuple first rest => do
    let first ← buildWithin definitions depth first
    add (.tuple (first :: (← buildAll definitions depth rest)))
  | .intersection first rest => do
    let first ← buildWithin definitions depth first
    add (.intersection (first :: (← buildAll definitions depth rest)))
  | .function parameters returns => do
    let parameters ← buildAll definitions depth parameters
    add (.function parameters (← buildOption definitions depth returns))
  | .reference identifier _ => do
    match (← get).handles.get? identifier, definitions.node? identifier, depth with
    | some handle, _, _ => return handle
    | none, none, _ => throw (.failed (.unresolvedReference identifier))
    | none, some _, 0 => throw .endless
    | none, some body, depth + 1 => do
      -- the handle is there before the body is built, so that the body can refer to it
      let (slot, handle) ← addHandle identifier
      fill slot (← buildWithin definitions depth body)
      return handle
  termination_by (depth, sizeOf node)
  decreasing_by
    all_goals simp [Prod.lex_def] at *
    all_goals omega

def buildShape (definitions : DefinitionMap) (depth : Nat) (shape : List (String × Node)) :
    Build (List (String × SchemaId)) :=
  match shape with
  | [] => pure []
  | (name, node) :: rest => do
    let id ← buildWithin definitions depth node
    return (name, id) :: (← buildShape definitions depth rest)
  termination_by (depth, sizeOf shape)

def buildAll (definitions : DefinitionMap) (depth : Nat) (nodes : List Node) :
    Build (List SchemaId) :=
  match nodes with
  | [] => pure []
  | node :: rest => do
    let id ← buildWithin definitions depth node
    return id :: (← buildAll definitions depth rest)
  termination_by (depth, sizeOf nodes)

def buildOption (definitions : DefinitionMap) (depth : Nat) (node : Option Node) :
    Build (Option SchemaId) :=
  match node with
  | none => pure none
  | some node => return some (← buildWithin definitions depth node)
  termination_by (depth, sizeOf node)

end

/-- Builds the schema of a node into the graph.

A definition is entered only if it has no handle yet, so no entry is nested in more others than
there are definitions. -/
def build (draft : SchemaDraft) (definitions : DefinitionMap) (node : Node) :
    Except Halt SchemaId × SchemaDraft :=
  ((buildWithin definitions definitions.size node).run).run draft

end SchemaDraft

namespace SchemaGraph

/-- The graph of one node and the number of its schema there. -/
def ofNode (definitions : DefinitionMap) (node : Node) : Except Halt (SchemaGraph × SchemaId) :=
  match SchemaDraft.build {} definitions node with
  | (.ok root, draft) => pure (draft.graph, root)
  | (.error halt, _) => throw halt

end SchemaGraph

end TypeGraph
