import TypeGraph.Number.Binary64
import TypeGraph.Node.Kind

/-!
# Type checkers

What an outside type checker says about its types. A type is known by its number; two numbers are
the same type exactly if they are equal. A `Checker` answers all questions about a type at once
with a `TypeInfo`, and can render a type as text.
-/

namespace TypeGraph

/-- A type of a checker. -/
abbrev TypeId := Nat

/-- What a checker can say about a type that has no structure. -/
inductive TypeFlag where
  | string
  | number
  | boolean
  | null
  | undefined
  | unknown
  | void
  | any
  | never
  | bigint
  /-- Either `true` or `false` as a type. -/
  | booleanLiteral
  deriving DecidableEq

namespace TypeFlag

/-- The flags, in the order in which they are asked for. -/
def all : List TypeFlag :=
  [string, number, boolean, null, undefined, unknown, void, any, never, bigint, booleanLiteral]

/-- The type that a flag alone determines. -/
def primitive? : TypeFlag → Option Primitive
  | string => some .string
  | number => some .number
  | boolean => some .boolean
  | null => some .null
  | undefined => some .undefined
  | unknown => some .unknown
  | void => some .void
  | any => some .any
  | never => some .never
  | bigint => some .bigint
  | booleanLiteral => none

end TypeFlag

/-- The value of a literal type, as the checker gives it. -/
inductive RawLiteral where
  | string (value : String)
  | number (value : Binary64)
  | bigint (negative : Bool) (digits : String)

structure TupleElement where
  type : TypeId
  optional : Bool

structure Property where
  name : String
  type : TypeId
  optional : Bool

structure Signature where
  parameters : List TypeId
  returns : TypeId

/-- Everything a checker says about a type, except for its rendering. -/
structure TypeInfo where
  flags : List TypeFlag := []
  literal : Option RawLiteral := none
  /-- The name of the declaration; `__type` or `__object` for types without one. -/
  symbol : Option String := none
  /-- The name of the alias that the type is written through. -/
  aliasName : Option String := none
  aliasArguments : List TypeId := []
  typeArguments : List TypeId := []
  isObject : Bool := false
  tuple : Option (List TupleElement) := none
  properties : List Property := []
  stringIndex : Option TypeId := none
  numberIndex : Option TypeId := none
  signatures : List Signature := []
  union : Option (List TypeId) := none
  intersection : Option (List TypeId) := none

/-- A checker with the types `0` to `size - 1`. -/
structure Checker where
  size : Nat
  describe : TypeId → TypeInfo
  /-- The rendering of a type, which ends up in labels and messages; `none` if it has no end. -/
  text : TypeId → Option String

/-- The checker of a table with one row a type. -/
def Checker.ofTable (rows : Array (TypeInfo × String)) : Checker where
  size := rows.size
  describe id := (rows[id]?.map Prod.fst).getD {}
  text id := some ((rows[id]?.map Prod.snd).getD "")

end TypeGraph
