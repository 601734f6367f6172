import TypeGraph.TypeExpr.OfNode
import TypeGraph.Text.Identifier

/-!
# Printing TypeScript types

The text of type expressions and aliases. Parentheses are written where a type would otherwise be
read as a part of what surrounds it, as its position and its outermost form decide. Objects with
properties take one line a property.
-/

namespace TypeGraph

/-- The choices of declaration text. -/
structure DeclarationStyle where
  /-- Whether aliases are exported. -/
  exported : Bool := true
  /-- Whether properties are `readonly`. -/
  readonly : Bool := false
  /-- Spaces of indentation a level. -/
  indent : Nat := 2

/-- Where a type stands, as far as parentheses depend on it. -/
inductive Position where
  | top
  | arrayElement
  | unionMember
  | intersectionMember
  | optionalElement
  deriving DecidableEq

namespace TypeExpr

/-- Whether a type needs parentheses at a position. -/
def needsParentheses : TypeExpr → Position → Bool
  | union _, position => position != .top && position != .unionMember
  | intersection _, position => position == .arrayElement || position == .optionalElement
  | function _ _, position => position != .top
  | _, _ => false

/-- A text in parentheses if they are needed. -/
def enclose (needed : Bool) (text : String) : String := if needed then "(" ++ text ++ ")" else text

def spaces (count : Nat) : String := String.ofList (List.replicate count ' ')

mutual

/-- The text of a type, without parentheses around it, inside `depth` objects. -/
def text (style : DeclarationStyle) (depth : Nat) : TypeExpr → String
  | keyword k => k.text
  | literal value => value.text
  | reference name [] => name
  | reference name (first :: rest) =>
    name ++ "<" ++ ", ".intercalate (texts style depth .top (first :: rest)) ++ ">"
  | object [] => "\x7b\x7d"
  | object (first :: rest) =>
    "\x7b\n" ++ String.join (propertyTexts style depth (first :: rest))
      ++ spaces (style.indent * depth) ++ "\x7d"
  | array element =>
    enclose (element.needsParentheses .arrayElement) (text style depth element) ++ "[]"
  | tuple elements => "[" ++ ", ".intercalate (elementTexts style depth elements) ++ "]"
  | function parameters returns =>
    "(" ++ ", ".intercalate (parameterTexts style depth parameters) ++ ") => "
      ++ text style depth returns
  | union members => " | ".intercalate (texts style depth .unionMember members)
  | intersection members => " & ".intercalate (texts style depth .intersectionMember members)
  | parenthesized inner => "(" ++ text style depth inner ++ ")"

/-- The texts of types that stand at one position. -/
def texts (style : DeclarationStyle) (depth : Nat) (position : Position) :
    List TypeExpr → List String
  | [] => []
  | type :: rest =>
    enclose (type.needsParentheses position) (text style depth type)
      :: texts style depth position rest

/-- The lines of properties. -/
def propertyTexts (style : DeclarationStyle) (depth : Nat) :
    List (String × Bool × TypeExpr) → List String
  | [] => []
  | (name, optional, type) :: rest =>
    (spaces (style.indent * (depth + 1)) ++ (if style.readonly then "readonly " else "")
        ++ Identifier.propertyKey name ++ (if optional then "?: " else ": ")
        ++ text style (depth + 1) type ++ ";\n")
      :: propertyTexts style depth rest

def elementTexts (style : DeclarationStyle) (depth : Nat) : List (Bool × TypeExpr) → List String
  | [] => []
  | (optional, type) :: rest =>
    (if optional then
      enclose (type.needsParentheses .optionalElement) (text style depth type) ++ "?"
    else text style depth type)
      :: elementTexts style depth rest

def parameterTexts (style : DeclarationStyle) (depth : Nat) :
    List (String × TypeExpr) → List String
  | [] => []
  | (name, type) :: rest => (name ++ ": " ++ text style depth type)
      :: parameterTexts style depth rest

end

/-- The text of a type on its own. -/
def print (style : DeclarationStyle) (type : TypeExpr) : String := type.text style 0

end TypeExpr

namespace TypeAlias

/-- The text of an alias, with the semicolon. -/
def print (style : DeclarationStyle) (type : TypeAlias) : String :=
  (if style.exported then "export " else "") ++ "type " ++ type.name ++ " = "
    ++ type.type.print style ++ ";"

/-- The text of a module with one alias after the other. -/
def printModule (style : DeclarationStyle) (definitions : DefinitionMap) (root : Node)
    (rootName : String) : Except Error String :=
  return String.join
    ((← ofModule definitions root rootName).map fun type => type.print style ++ "\n")

end TypeAlias

end TypeGraph
