import TypeGraph.Node.Kind

/-!
# Errors

Why a type cannot be built, read from a checker, resolved or written for a target; and the one
message of each reason.
-/

namespace TypeGraph

/-- The formats that types are written in. -/
inductive Target where
  | zod
  | typeBox
  | jsonSchema
  | typeScript
  deriving DecidableEq

def Target.name : Target → String
  | zod => "Zod"
  | typeBox => "TypeBox"
  | jsonSchema => "JSON Schema"
  | typeScript => "TypeScript"

/-- What a target may have no construct for. -/
inductive Feature where
  | kind (kind : Kind)
  | bigintLiteral
  | nonFiniteNumber
  | optionalTupleElement
  deriving DecidableEq

def Feature.text : Feature → String
  | kind k => k.name
  | bigintLiteral => "bigint literal"
  | nonFiniteNumber => "non-finite number literal"
  | optionalTupleElement => "optional tuple element"

inductive Error where
  /-- The target has no construct for a part of the type. -/
  | unsupportedFeature (target : Target) (feature : Feature)
  /-- A checker's type has none of the known shapes; `text` is the checker's rendering of it. -/
  | unknownType (text : String)
  /-- A union, tuple or intersection without members. -/
  | emptyMembers (kind : Kind)
  /-- A reference names no definition, or only definitions that name each other. -/
  | unresolvedReference (identifier : String)
  /-- A deferred schema has no target yet, or only deferred schemas that defer to each other. -/
  | unresolvedLazy (index : Nat)
  deriving DecidableEq

def Error.message : Error → String
  | unsupportedFeature target feature => target.name ++ " does not support " ++ feature.text
  | unknownType text => "unknown type: " ++ text
  | emptyMembers kind => kind.name ++ " requires at least one member"
  | unresolvedReference identifier => "unresolved definition reference `" ++ identifier ++ "`"
  | unresolvedLazy index => "lazy schema #" ++ toString index ++ " is not resolved"

/-- Why a walk over a graph gives no answer: an error, or a cycle on which it would not end. -/
inductive Halt where
  | failed (error : Error)
  | endless
  deriving DecidableEq

/-- In a walk, an error is a reason to halt. -/
def orHalt {m : Type → Type} [Monad m] [MonadExcept Halt m] {α : Type} : Except Error α → m α
  | .ok value => pure value
  | .error error => throw (.failed error)

end TypeGraph
