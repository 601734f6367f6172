import TypeGraph.Literal
import TypeGraph.Text.Identifier

/-!
# JavaScript expressions

The few forms of expression that validators are built with, and their source text.
-/

namespace TypeGraph.Validator

inductive Expr where
  | identifier (name : String)
  | literal (value : Literal)
  | array (elements : List Expr)
  | object (properties : List (String × Expr))
  /-- A method call, `receiver.method(arguments)`. -/
  | call (receiver : Expr) (method : String) (arguments : List Expr)

namespace Expr

mutual

def text : Expr → String
  | identifier name => name
  | literal value => value.text
  | array elements => "[" ++ ", ".intercalate (textOfAll elements) ++ "]"
  | object [] => "\x7b\x7d"
  | object (first :: rest) =>
    "\x7b " ++ ", ".intercalate (textOfProperties (first :: rest)) ++ " \x7d"
  | call receiver method arguments =>
    text receiver ++ "." ++ method ++ "(" ++ ", ".intercalate (textOfAll arguments) ++ ")"

def textOfAll : List Expr → List String
  | [] => []
  | expr :: rest => text expr :: textOfAll rest

def textOfProperties : List (String × Expr) → List String
  | [] => []
  | (name, expr) :: rest =>
    (Identifier.propertyKey name ++ ": " ++ text expr) :: textOfProperties rest

end

end Expr

end TypeGraph.Validator
