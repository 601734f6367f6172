import TypeGraph.TypeStore.Basic

/-!
# Steps of building a store

What can be done to a `TypeStore` as data, for stores that are built step by step.
-/

namespace TypeGraph.TypeStore

/-- A step of building a store. -/
inductive Operation where
  | intrinsic (flag : TypeFlag)
  | literal (value : RawLiteral)
  | booleanLiteral (value : Bool)
  | object (members : ObjectType)
  | interface (name : String) (members : ObjectType)
  | function (parameters : List TypeId) (returns : TypeId)
  | tuple (elements : List TupleElement)
  | union (members : List TypeId)
  | intersection (members : List TypeId)
  | reference (symbol : String) (arguments : List TypeId)
  | record (key value : TypeId)
  | addAlias (name : String) (arguments : List TypeId) (body : TypeId)
  | declareAlias (name : String) (arguments : List TypeId)
  | declareInterface (name : String)
  | define (declared body : TypeId)

/-- The type that a step makes, if it makes one, and the store after it. -/
def Operation.apply (store : TypeStore) : Operation → Option TypeId × TypeStore
  | .intrinsic flag => (store.intrinsic flag).map some id
  | .literal value => (store.literal value).map some id
  | .booleanLiteral value => (store.booleanLiteral value).map some id
  | .object members => (store.object members).map some id
  | .interface name members => (store.interface name members).map some id
  | .function parameters returns => (store.function parameters returns).map some id
  | .tuple elements => (store.tuple elements).map some id
  | .union members => (store.union members).map some id
  | .intersection members => (store.intersection members).map some id
  | .reference symbol arguments => (store.reference symbol arguments).map some id
  | .record key value => (store.record key value).map some id
  | .addAlias name arguments body => (store.addAlias name arguments body).map some id
  | .declareAlias name arguments => (store.declareAlias name arguments).map some id
  | .declareInterface name => (store.declareInterface name).map some id
  | .define declared body => (none, store.define declared body)

end TypeGraph.TypeStore
