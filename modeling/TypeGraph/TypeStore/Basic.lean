import TypeGraph.Checker.Basic
import TypeGraph.Literal
import TypeGraph.OrderedMap

/-!
# A checker of hand-built types

A `TypeStore` holds types that are built one by one and answers about them as a structural checker
does: an alias is an attribute of the type written through it, anonymous objects carry the symbol
`__type`, and built-in generics are references to a named symbol. A recursive type is declared
first and defined later.
-/

namespace TypeGraph

/-- The members of an object type. -/
structure ObjectType where
  properties : List Property := []
  stringIndex : Option TypeId := none
  numberIndex : Option TypeId := none
  signatures : List Signature := []

/-- The structure of a stored type. -/
inductive TypeData where
  /-- Declared and not yet defined. -/
  | declared
  | intrinsic (flag : TypeFlag)
  | literal (value : RawLiteral)
  | boolean (value : Bool)
  | object (object : ObjectType)
  | tuple (elements : List TupleElement)
  /-- A built-in generic or value class, named by the symbol, with its arguments. -/
  | reference (arguments : List TypeId)
  | union (members : List TypeId)
  | intersection (members : List TypeId)

structure TypeEntry where
  data : TypeData
  symbol : Option String := none
  /-- The alias that the type is written through, with its arguments. -/
  aliased : Option (String × List TypeId) := none

structure TypeStore where
  entries : Array TypeEntry := #[]
  /-- The one type of each intrinsic flag that has been asked for. -/
  intrinsics : OrderedMap TypeFlag TypeId := .empty

namespace TypeStore

/-- The symbol of anonymous object types. -/
def anonymous : String := "__type"

def size (store : TypeStore) : Nat := store.entries.size

/-- A stored type; an id without one is like a declared type. -/
def entry (store : TypeStore) (id : TypeId) : TypeEntry :=
  store.entries[id]?.getD { data := .declared }

/-- Adds a type. -/
def push (store : TypeStore) (entry : TypeEntry) : TypeId × TypeStore :=
  (store.size, { store with entries := store.entries.push entry })

/-! ## Building -/

def booleanLiteral (store : TypeStore) (value : Bool) : TypeId × TypeStore :=
  store.push { data := .boolean value }

/-- The type of a flag, added when it is first asked for. As there are two boolean literals, their
flag adds a new `false` every time. -/
def intrinsic (store : TypeStore) (flag : TypeFlag) : TypeId × TypeStore :=
  if flag = .booleanLiteral then store.booleanLiteral false
  else match store.intrinsics.get? flag with
    | some id => (id, store)
    | none =>
      let (id, store) := store.push { data := .intrinsic flag }
      (id, { store with intrinsics := store.intrinsics.insert flag id })

def literal (store : TypeStore) (value : RawLiteral) : TypeId × TypeStore :=
  store.push { data := .literal value }

/-- An anonymous object type. -/
def object (store : TypeStore) (object : ObjectType) : TypeId × TypeStore :=
  store.push { data := .object object, symbol := some anonymous }

def interface (store : TypeStore) (name : String) (object : ObjectType) : TypeId × TypeStore :=
  store.push { data := .object object, symbol := some name }

/-- A function type with one signature. -/
def function (store : TypeStore) (parameters : List TypeId) (returns : TypeId) :
    TypeId × TypeStore :=
  store.object { signatures := [⟨parameters, returns⟩] }

def tuple (store : TypeStore) (elements : List TupleElement) : TypeId × TypeStore :=
  store.push { data := .tuple elements }

def union (store : TypeStore) (members : List TypeId) : TypeId × TypeStore :=
  store.push { data := .union members }

def intersection (store : TypeStore) (members : List TypeId) : TypeId × TypeStore :=
  store.push { data := .intersection members }

/-- A reference to a named generic or value class. -/
def reference (store : TypeStore) (symbol : String) (arguments : List TypeId) :
    TypeId × TypeStore :=
  store.push { data := .reference arguments, symbol := some symbol }

/-- A copy of a type, written through an alias. -/
def addAlias (store : TypeStore) (name : String) (arguments : List TypeId) (body : TypeId) :
    TypeId × TypeStore :=
  store.push { store.entry body with aliased := some (name, arguments) }

/-- The type `Record<key, value>`: an object with a string index, written through that alias. -/
def record (store : TypeStore) (key value : TypeId) : TypeId × TypeStore :=
  let (body, store) := store.object { stringIndex := some value }
  store.addAlias "Record" [key, value] body

/-- An alias whose body comes later. -/
def declareAlias (store : TypeStore) (name : String) (arguments : List TypeId) :
    TypeId × TypeStore :=
  store.push { data := .declared, aliased := some (name, arguments) }

/-- An interface whose members come later. -/
def declareInterface (store : TypeStore) (name : String) : TypeId × TypeStore :=
  store.push { data := .declared, symbol := some name }

/-- Gives a declared type the structure of another. An alias takes its symbol as well; an interface
keeps its own. -/
def define (store : TypeStore) (declared body : TypeId) : TypeStore :=
  let source := store.entry body
  let target := store.entry declared
  -- the alias of the target stays, whatever the body was written through
  let defined := { target with
    data := source.data
    symbol := if target.aliased.isSome then source.symbol else target.symbol }
  { store with entries := store.entries.setIfInBounds declared defined }

/-! ## Answers -/

/-- What the store says about a type. -/
def describe (store : TypeStore) (id : TypeId) : TypeInfo :=
  let entry := store.entry id
  let info : TypeInfo :=
    { symbol := entry.symbol
      aliasName := entry.aliased.map Prod.fst
      aliasArguments := (entry.aliased.map Prod.snd).getD [] }
  match entry.data with
  | .declared => info
  | .intrinsic flag => { info with flags := [flag] }
  | .literal value => { info with literal := some value }
  | .boolean _ => { info with flags := [.booleanLiteral] }
  | .object object =>
    { info with
      isObject := true
      properties := object.properties
      stringIndex := object.stringIndex
      numberIndex := object.numberIndex
      signatures := object.signatures }
  | .tuple elements => { info with isObject := true, tuple := some elements }
  | .reference arguments => { info with isObject := true, typeArguments := arguments }
  | .union members => { info with union := some members }
  | .intersection members => { info with intersection := some members }

end TypeStore

end TypeGraph
