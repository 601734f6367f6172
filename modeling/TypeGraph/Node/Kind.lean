/-!
# Kinds of types

The names of the variants of a type, as the serialized form and the messages spell them.
-/

namespace TypeGraph

/-- The types without parts. -/
inductive Primitive where
  | string
  | number
  | boolean
  | null
  | undefined
  | void
  | any
  | unknown
  | never
  | bigint
  | date
  | regexp
  deriving DecidableEq

namespace Primitive

def name : Primitive → String
  | string => "string"
  | number => "number"
  | boolean => "boolean"
  | null => "null"
  | undefined => "undefined"
  | void => "void"
  | any => "any"
  | unknown => "unknown"
  | never => "never"
  | bigint => "bigint"
  | date => "date"
  | regexp => "regexp"

/-- All primitives, in the order of the serialized form. -/
def all : List Primitive :=
  [string, number, boolean, null, undefined, void, any, unknown, never, bigint, date, regexp]

end Primitive

/-- What a type is at its outermost level. -/
inductive Kind where
  | primitive (primitive : Primitive)
  | literal
  | array
  | set
  | record
  | map
  | object
  | union
  | tuple
  | intersection
  | function
  | reference
  deriving DecidableEq

namespace Kind

def name : Kind → String
  | primitive p => p.name
  | literal => "literal"
  | array => "array"
  | set => "set"
  | record => "record"
  | map => "map"
  | object => "object"
  | union => "union"
  | tuple => "tuple"
  | intersection => "intersection"
  | function => "function"
  | reference => "definitionReference"

/-- All kinds, in the order of the serialized form. -/
def all : List Kind :=
  Primitive.all.map primitive
    ++ [literal, array, set, record, map, object, union, tuple, intersection, function, reference]

def ofName? (name : String) : Option Kind := all.find? fun kind => kind.name == name

end Kind

end TypeGraph
