import TypeGraph.Definition.Basic
import TypeGraph.Text.Identifier

/-!
# Registry

A `Registry` collects definitions while a graph of named things is walked. Each named thing has a
key; a key gets one identifier, the first time it is met, and keeps it.

Cycles end at the registry: `Registry.intern` registers a key with the placeholder body `unknown`
before its body is resolved, so that meeting the key again inside its own body answers with a
reference. A body that cannot be resolved leaves the placeholder behind.
-/

namespace TypeGraph

/-- Definitions by the keys of the things they stand for. -/
structure Registry (κ : Type) where
  definitions : DefinitionMap
  /-- The identifier of each registered key. -/
  identities : OrderedMap κ String
  /-- The identifiers whose bodies are still placeholders. -/
  pending : List String
  /-- How many keys have been registered. -/
  interned : UInt32
  /-- Whether the number behind a name goes on from the least one when it leaves its 32 bits. A
  program that checks for overflow stops there instead. -/
  wraps : Bool

namespace Registry

variable {κ : Type}

/-- The registry at the start of a program that does or does not wrap. -/
def start (wraps : Bool) : Registry κ := ⟨.empty, .empty, [], 0, wraps⟩

/-- The empty registry of a program that checks for overflow. -/
def empty : Registry κ := .start false

def internedCount (registry : Registry κ) : UInt32 := registry.interned

/-! ## Identifiers -/

/-- Names that emitted code already has a meaning for. -/
def reservedNames : List String :=
  ["Array", "BigInt", "Boolean", "Date", "Error", "Function", "JSON", "Map", "Math", "Number",
    "Object", "Promise", "Record", "RegExp", "Set", "String", "Symbol", "Type", "WeakMap",
    "WeakSet"]

/-- Whether a name is free to become an identifier. -/
def isAvailable (registry : Registry κ) (name : String) : Bool :=
  !reservedNames.contains name && !registry.definitions.contains name

/-- The number that is tried at an attempt: 2, 3, … and, where it wraps, the least number of 32 bits
behind the greatest.

Greater numbers stand here for what gives no name: a program that checks for overflow stops behind
the greatest number of 32 bits, and one that wraps, with the names of all `UInt32.size` numbers
taken, tries them again without end. -/
def numberAt (wraps : Bool) (attempt : Nat) : Int :=
  if wraps = true ∧ attempt < UInt32.size then (Int32.ofNat (attempt + 2)).toInt else attempt + 2

/-- The name that is tried at an attempt, when the base is not free. -/
def numbered (wraps : Bool) (base : String) (attempt : Nat) : String :=
  base ++ toString (numberAt wraps attempt)

/-- The first free name among a base and the base with numbers behind it.

One more name is tried than can be taken, so one of them is free. -/
def freeName (registry : Registry κ) (base : String) : String :=
  let attempts := List.range (reservedNames.length + registry.definitions.size)
  ((base :: attempts.map (numbered registry.wraps base)).find? registry.isAvailable).getD base

/-- A free identifier, derived from the label if it has anything to derive one from. -/
def freeIdentifier (registry : Registry κ) (label : Option String) : String :=
  registry.freeName ((label.bind Identifier.ofLabel?).getD "Definition")

/-! ## Registration -/

variable [DecidableEq κ]

def contains (registry : Registry κ) (key : κ) : Bool := registry.identities.contains key

/-- The identifier of a key. -/
def identifier? (registry : Registry κ) (key : κ) : Option String := registry.identities.get? key

/-- A reference to the definition of a key, if the key is registered. -/
def lookup (registry : Registry κ) (key : κ) : Option Node := do
  registry.definitions.reference? (← registry.identifier? key)

/-- Whether a key is registered and its body is still a placeholder. -/
def isPending (registry : Registry κ) (key : κ) : Bool :=
  (registry.identifier? key).any registry.pending.contains

/-- Gives a new key an identifier and a placeholder body. -/
def register (registry : Registry κ) (key : κ) (label : Option String) : String × Registry κ :=
  let identifier := registry.freeIdentifier label
  (identifier,
    { registry with
      definitions := registry.definitions.insert identifier ⟨.unknown, label⟩
      identities := registry.identities.insert key identifier
      pending := identifier :: registry.pending
      interned := registry.interned + 1 })

/-- Replaces the body of a definition, which is then no placeholder any more. -/
def complete (registry : Registry κ) (identifier : String) (body : Node) : Registry κ :=
  { registry with
    definitions := registry.definitions.setNode identifier body
    pending := registry.pending.filter (· != identifier) }

/-- A reference for a key, which is registered with a placeholder if it is new. -/
def reserve (registry : Registry κ) (key : κ) (label : Option String) : Node × Registry κ :=
  match registry.lookup key with
  | some reference => (reference, registry)
  | none =>
    let (identifier, registry) := registry.register key label
    (.reference identifier label, registry)

/-- A reference for a key. The body of a new key is resolved once, after the key is registered. -/
def intern {m : Type → Type} [Monad m] [MonadStateOf (Registry κ) m] (key : κ)
    (label : Option String) (resolve : m Node) : m Node := do
  match (← getThe (Registry κ)).lookup key with
  | some reference => return reference
  | none =>
    let identifier ← modifyGetThe (Registry κ) fun registry => registry.register key label
    -- from here on the key answers with a reference, inside its own body as well
    let body ← resolve
    modifyThe (Registry κ) fun registry => registry.complete identifier body
    return .reference identifier label

end Registry

end TypeGraph
