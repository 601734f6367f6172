import TypeGraph.Literal

/-!
# TypeScript type expressions

The syntax of the types that declarations are written with.
-/

namespace TypeGraph

/-- The types that are keywords. -/
inductive Keyword where
  | string
  | number
  | boolean
  | bigint
  | undefined
  | unknown
  | void
  | any
  | never
  deriving DecidableEq

namespace Keyword

def text : Keyword → String
  | string => "string"
  | number => "number"
  | boolean => "boolean"
  | bigint => "bigint"
  | undefined => "undefined"
  | unknown => "unknown"
  | void => "void"
  | any => "any"
  | never => "never"

def all : List Keyword :=
  [string, number, boolean, bigint, undefined, unknown, void, any, never]

def ofText? (text : String) : Option Keyword := all.find? fun keyword => keyword.text == text

end Keyword

/-- A TypeScript type expression. A property and a slot say whether they are optional before their
type. -/
inductive TypeExpr where
  | keyword (keyword : Keyword)
  | literal (value : Literal)
  /-- A name, `Name` or `Name<A, B>`. -/
  | reference (name : String) (arguments : List TypeExpr)
  /-- Properties, `{ a: A; b?: B }`. -/
  | object (properties : List (String × Bool × TypeExpr))
  | array (element : TypeExpr)
  /-- Slots, `[A, B?]`. -/
  | tuple (elements : List (Bool × TypeExpr))
  /-- Named parameters and a result, `(a: A) => R`. -/
  | function (parameters : List (String × TypeExpr)) (returns : TypeExpr)
  | union (members : List TypeExpr)
  | intersection (members : List TypeExpr)
  | parenthesized (inner : TypeExpr)

/-- A named type, `type name = type;`. -/
structure TypeAlias where
  name : String
  type : TypeExpr

end TypeGraph
