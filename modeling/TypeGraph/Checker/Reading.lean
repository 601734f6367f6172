import TypeGraph.Checker.Basic
import TypeGraph.Node.Optional

/-!
# Reading one level of a type

A checker's type is, in this order, what a flag says, a literal, a built-in container or class, the
alias `Record`, a named type, an object, a union or an intersection. `Checker.readType` reads that
one level, in any monad: `visit` is what is done with the types inside, and `readNamed` with a type
whose name may matter.
-/

namespace TypeGraph

/-- The built-in generics and value classes that are known by their symbol. -/
inductive Builtin where
  | array
  | set
  | map
  | date
  | regexp
  deriving DecidableEq

def Builtin.ofSymbol? : String → Option Builtin
  | "Array" | "ReadonlyArray" => some array
  | "Set" => some set
  | "Map" => some map
  | "Date" => some date
  | "RegExp" => some regexp
  | _ => none

namespace TypeInfo

/-- The primitive that the flags determine; of several flags the first in order counts. -/
def primitive? (info : TypeInfo) : Option Primitive :=
  TypeFlag.all.findSome? fun flag => if info.flags.contains flag then flag.primitive? else none

/-- Key and value of a type written through the alias `Record`. -/
def record? (info : TypeInfo) : Option (TypeId × TypeId) :=
  match info.aliasName, info.aliasArguments with
  | some "Record", [key, value] => some (key, value)
  | _, _ => none

/-- Whether the type has a declared name, and not one that stands for an anonymous type. -/
def isDeclared (info : TypeInfo) : Bool :=
  info.symbol.any fun symbol => symbol != "__type" && symbol != "__object"

end TypeInfo

namespace Checker

section

variable {m : Type → Type} [Monad m] [MonadExcept Halt m]
variable (checker : Checker) (visit : TypeId → m Node)

/-- The rendering of a type. -/
def textOf (type : TypeId) : m String :=
  match checker.text type with
  | some text => pure text
  | none => throw .endless

/-- Nothing is known about the type. -/
def unknownType {α : Type} (type : TypeId) : m α := do
  throw (.failed (.unknownType (← checker.textOf type)))

def readLiteral (type : TypeId) : RawLiteral → m Literal
  | .string value => pure (.string value)
  | .number value => pure (.number value)
  | .bigint negative digits =>
    match Integer.ofParts? negative digits with
    | some n => pure (.bigint n)
    | none => checker.unknownType type

/-- The type argument at an index, which has to be there. -/
def readArgument (type : TypeId) (index : Nat) : m Node :=
  match (checker.describe type).typeArguments[index]? with
  | some argument => visit argument
  | none => checker.unknownType type

def readBuiltin (type : TypeId) : Builtin → m Node
  | .array => return .array (← checker.readArgument visit type 0)
  | .set => return .set (← checker.readArgument visit type 0)
  | .map =>
    return .map (← checker.readArgument visit type 0) (← checker.readArgument visit type 1)
  | .date => pure (.primitive .date)
  | .regexp => pure (.primitive .regexp)

/-- The type of a slot or property, which admits `undefined` if the place may be empty. -/
def readSlot (type : TypeId) (optional : Bool) : m Node := do
  let node ← visit type
  return if optional then node.optional else node

/-- The index signatures as one record. With both a string and a number index, the string index
gives the value. -/
def readIndexes (info : TypeInfo) : m (Option Node) :=
  match info.stringIndex, info.numberIndex with
  | none, none => pure none
  | some value, none => return some (.record (.primitive .string) (← visit value))
  | none, some value => return some (.record (.primitive .number) (← visit value))
  | some value, some _ =>
    return some (.record (.union (.primitive .string) [.primitive .number]) (← visit value))

/-- The call signatures as a function or a union of functions. -/
def readSignatures (info : TypeInfo) : m (Option Node) := do
  let functions ← info.signatures.mapM fun signature => do
    let parameters ← signature.parameters.mapM visit
    return Node.function parameters (some (← visit signature.returns))
  return Node.unionOrSingle? functions

/-- The properties as an object, if there are any. -/
def readProperties (info : TypeInfo) : m (Option Node) := do
  let properties ← info.properties.mapM fun property =>
    return (property.name, ← readSlot visit property.type property.optional)
  return if properties.isEmpty then none else some (.objectOf properties)

/-- A tuple, or what index signatures, call signatures and properties make up together. -/
def readObject (info : TypeInfo) : m Node := do
  match info.tuple with
  | some elements =>
    orHalt (Node.tupleOf (← elements.mapM fun e => readSlot visit e.type e.optional))
  | none =>
    -- the parts are read in this order, so the first fault among them counts
    let indexes ← readIndexes visit info
    let signatures ← readSignatures visit info
    let properties ← readProperties visit info
    match indexes.toList ++ signatures.toList ++ properties.toList with
    | [] => return .object []
    | [only] => return only
    | first :: rest => return .intersection first rest

/-- The structure of a type without regard to its name. -/
def readStructure (type : TypeId) : m Node := do
  let info := checker.describe type
  if info.isObject then readObject visit info
  else match info.union, info.intersection with
    | some members, _ => orHalt (Node.unionOf (← members.mapM visit))
    | none, some members => orHalt (Node.intersectionOf (← members.mapM visit))
    | none, none => checker.unknownType type

/-- One level of a type. The types inside are left to `visit`; what is not recognised before its
name matters is left to `readNamed`. -/
def readType (readNamed : TypeId → m Node) (type : TypeId) : m Node := do
  let info := checker.describe type
  match info.primitive?, info.literal with
  | some primitive, _ => return .primitive primitive
  | none, some literal => return .literal (← checker.readLiteral type literal)
  | none, none =>
    if info.flags.contains .booleanLiteral then
      return .literal (.boolean ((← checker.textOf type) == "true"))
    else match info.symbol.bind Builtin.ofSymbol?, info.record? with
      | some builtin, _ => checker.readBuiltin visit type builtin
      | none, some (key, value) => return .record (← visit key) (← visit value)
      | none, none => readNamed type

end

end Checker

end TypeGraph
