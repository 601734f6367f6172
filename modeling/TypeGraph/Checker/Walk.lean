import TypeGraph.Checker.Reading
import TypeGraph.Definition.Inline
import TypeGraph.Registry

/-!
# Extraction

`Checker.extract` reads a checker's type, and every type that it reaches, into a node and its
definitions. The walk puts the reading of one level inside itself and leaves named types to a
registry, so it ends on every cycle that passes a registered name.
-/

namespace TypeGraph

/-- Which named types become definitions. -/
inductive Policy where
  /-- All types with an alias or a declared name. -/
  | named
  /-- Types with an alias; declared types only if they recur through themselves. -/
  | aliasesOnly
  /-- Named types that refer back to themselves; all others are inlined. -/
  | recursiveOnly
  deriving DecidableEq

/-- What a policy makes of a walked root and the definitions that were registered on the way. -/
def Policy.finish (policy : Policy) (root : Node) (definitions : DefinitionMap) : Extraction :=
  match policy with
  | .recursiveOnly => definitions.inlineAcyclic root
  | .named | .aliasesOnly => ⟨root, definitions⟩

namespace Checker

/-! ## The walk -/

/-- What a named type is registered under: itself and the arguments it is written with. -/
abbrev TypeKey := TypeId × List TypeId

/-- A walk keeps a registry and the declared types that are being inlined. A halted walk leaves
both as they are at the halt. -/
abbrev Walk := ExceptT Halt (StateT (List TypeKey) (StateM (Registry TypeKey)))

/-- Whether a name counts for the type in hand. -/
inductive Mode where
  /-- A named type becomes a reference. -/
  | reference
  /-- The type is the body of its own definition. -/
  | body
  deriving DecidableEq

/-- Runs a walk while a declared type counts as being inlined. -/
def whileInlining {α : Type} (key : TypeKey) (walk : Walk α) : Walk α := ExceptT.mk do
  modifyThe (List TypeKey) (key :: ·)
  let result ← walk.run
  modifyThe (List TypeKey) (·.erase key)
  return result

/-- A reference to the definition of a type, whose body is read at the first time. -/
def walkDefinition (checker : Checker) (body : TypeId → Walk Node) (type : TypeId)
    (key : TypeKey) : Walk Node := do
  let label ← checker.textOf type
  Registry.intern key (some label) (body type)

/-- A declared type in its place, unless it recurs: then it is registered inside its own body, and
the body completes the definition. -/
def walkInline (checker : Checker) (body : TypeId → Walk Node) (type : TypeId) (key : TypeKey) :
    Walk Node := do
  match (← getThe (Registry TypeKey)).lookup key with
  | some reference => return reference
  | none =>
    let label ← checker.textOf type
    if (← getThe (List TypeKey)).contains key then
      -- the type is met inside its own body, so it is a definition after all
      modifyGetThe (Registry TypeKey) fun registry => registry.reserve key (some label)
    else
      let node ← whileInlining key (body type)
      -- the body is the definition's if it was registered on the way, and stands in place if not
      match (← getThe (Registry TypeKey)).identifier? key with
      | some identifier =>
        modifyThe (Registry TypeKey) fun registry => registry.complete identifier node
        return .reference identifier (some label)
      | none => return node

/-- A type where its name counts. -/
def walkNamed (checker : Checker) (policy : Policy) (body structural : TypeId → Walk Node)
    (type : TypeId) : Walk Node :=
  let info := checker.describe type
  if info.aliasName.isSome then checker.walkDefinition body type (type, info.aliasArguments)
  else if info.isDeclared then
    let key := (type, info.typeArguments)
    match policy with
    | .aliasesOnly => checker.walkInline body type key
    | .named | .recursiveOnly => checker.walkDefinition body type key
  else structural type

/-- Walks a type and the types inside it, to at most `depth` levels. -/
def walk (checker : Checker) (policy : Policy) : Nat → Mode → TypeId → Walk Node
  | 0, _, _ => throw .endless
  | depth + 1, mode, type =>
    let visit := walk checker policy depth .reference
    let structural := checker.readStructure visit
    checker.readType visit
      (match mode with
        | .reference => checker.walkNamed policy (walk checker policy depth .body) structural
        | .body => structural)
      type

/-- A depth that no walk with an end exceeds.

A type takes at most two levels, one for its name and one for its body. Along a path of the walk a
type comes back only after another type was registered or began to be inlined, and either happens at
most once for each type. -/
def walkDepth (checker : Checker) : Nat := 2 * ((checker.size + 1) * (checker.size + 1))

/-- The node of a type and the definitions of the types that it reaches. -/
def extract (checker : Checker) (policy : Policy) (type : TypeId) : Except Halt Extraction :=
  let ((root, _), registry) :=
    ((checker.walk policy checker.walkDepth .reference type).run.run []).run .empty
  root.map fun root => policy.finish root registry.definitions

end Checker

end TypeGraph
