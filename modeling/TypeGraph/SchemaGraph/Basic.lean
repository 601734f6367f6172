import TypeGraph.Error
import TypeGraph.Literal
import TypeGraph.OrderedMap

/-!
# Schema graphs

A `SchemaGraph` holds live schemas, numbered as they are added, that refer to each other by number.
A recursive schema goes through a deferred slot, a *lazy*, whose target is filled in when the schema
that it stands for exists.
-/

namespace TypeGraph

/-- The number of a schema in its graph. -/
abbrev SchemaId := Nat

/-- The number of a lazy in its graph. -/
abbrev LazyId := Nat

/-- A schema over other schemas of its graph. -/
inductive Schema where
  | primitive (kind : Primitive)
  | literal (value : Literal)
  | array (element : SchemaId)
  | set (element : SchemaId)
  | record (key : SchemaId) (value : SchemaId)
  | map (key : SchemaId) (value : SchemaId)
  | object (properties : OrderedMap String SchemaId)
  /-- The inner schema, or no value at all. -/
  | optional (inner : SchemaId)
  | union (members : List SchemaId)
  | tuple (elements : List SchemaId)
  | intersection (members : List SchemaId)
  | function (parameters : List SchemaId) (returns : Option SchemaId)
  | lazy (slot : LazyId)

namespace Schema

/-- The schemas that a schema mentions by number, in order. -/
def children : Schema → List SchemaId
  | primitive _ | literal _ | lazy _ => []
  | array element | set element | optional element => [element]
  | record key value | map key value => [key, value]
  | object properties => properties.values
  | union members | tuple members | intersection members => members
  | function parameters returns => parameters ++ returns.toList

end Schema

/-- A deferred schema: the definition that it stands for, and its target once that exists. -/
structure LazySlot where
  name : String
  target : Option SchemaId := none

structure SchemaGraph where
  schemas : Array Schema := #[]
  lazies : Array LazySlot := #[]

namespace SchemaGraph

def size (graph : SchemaGraph) : Nat := graph.schemas.size

def isEmpty (graph : SchemaGraph) : Bool := graph.schemas.isEmpty

/-- The schema of a number. A number without a schema reads as `never`, which admits nothing. -/
def get (graph : SchemaGraph) (id : SchemaId) : Schema :=
  graph.schemas[id]?.getD (.primitive .never)

def add (graph : SchemaGraph) (schema : Schema) : SchemaId × SchemaGraph :=
  (graph.size, { graph with schemas := graph.schemas.push schema })

/-! ## Lazies -/

/-- Adds a lazy without a target. -/
def addLazy (graph : SchemaGraph) (name : String) : LazyId × SchemaGraph :=
  (graph.lazies.size, { graph with lazies := graph.lazies.push { name } })

/-- Points a lazy at a schema. -/
def fill (graph : SchemaGraph) (slot : LazyId) (target : SchemaId) : SchemaGraph :=
  { graph with lazies := graph.lazies.modify slot fun lazy => { lazy with target := some target } }

def lazyName (graph : SchemaGraph) (slot : LazyId) : String :=
  (graph.lazies[slot]?.map LazySlot.name).getD ""

def lazyTarget (graph : SchemaGraph) (slot : LazyId) : Except Error SchemaId :=
  match graph.lazies[slot]?.bind LazySlot.target with
  | some target => pure target
  | none => throw (.unresolvedLazy slot)

/-- Follows at most `steps` lazies. -/
def follow (graph : SchemaGraph) : Nat → SchemaId → Except Error Schema
  | steps, id =>
    match graph.get id, steps with
    | .lazy slot, 0 => throw (.unresolvedLazy slot)
    | .lazy slot, steps + 1 => do follow graph steps (← graph.lazyTarget slot)
    | schema, _ => pure schema
  termination_by steps => steps

/-- The first schema that is no lazy, following lazies from the given one.

A chain without repetition passes each lazy at most once; one that goes on after that never ends. -/
def resolve (graph : SchemaGraph) (id : SchemaId) : Except Error Schema :=
  graph.follow (graph.lazies.size + 1) id

/-! ## Reachability -/

/-- The schemas that a schema leads to in one step, through the target in case of a lazy. -/
def successors (graph : SchemaGraph) (id : SchemaId) : List SchemaId :=
  match graph.get id with
  | .lazy slot => (graph.lazies[slot]?.bind LazySlot.target).toList
  | schema => schema.children

/-- What of `unseen` is left after taking out everything that the pending schemas lead to. -/
def withoutReachable (graph : SchemaGraph) (unseen : List SchemaId) :
    List SchemaId → List SchemaId
  | [] => unseen
  | id :: pending =>
    if h : id ∈ unseen then
      have : (unseen.erase id).length < unseen.length := by
        have := List.length_pos_of_mem h
        rw [List.length_erase_of_mem h]
        omega
      withoutReachable graph (unseen.erase id) (graph.successors id ++ pending)
    else withoutReachable graph unseen pending
  termination_by pending => (unseen.length, pending.length)

/-- The schemas that a schema leads to, itself included, in the order of their numbers. -/
def reachable (graph : SchemaGraph) (root : SchemaId) : List SchemaId :=
  let all := List.range graph.size
  let left := graph.withoutReachable all [root]
  all.filter fun id => !left.contains id

end SchemaGraph

end TypeGraph
