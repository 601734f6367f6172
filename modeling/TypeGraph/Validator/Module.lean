import TypeGraph.Definition.Graph
import TypeGraph.Validator.TypeBox
import TypeGraph.Validator.Zod

/-!
# Validator modules

Source text of validators: of one type, of all definitions as constants, and of a module that
declares the definitions before the constants that use them, as far as cycles allow, and a root
after all of them.
-/

namespace TypeGraph.Validator

/-- The library that validators are written for. -/
inductive Dialect where
  | zod
  | typeBox
  deriving DecidableEq

/-- The validator of a node. -/
def expression (dialect : Dialect) (definitions : DefinitionMap) (node : Node) :
    Except Error Expr :=
  match dialect with
  | .zod => Zod.ofNode definitions node
  | .typeBox => TypeBox.ofNode definitions node

/-- The source text of the validator of a node. -/
def emit (dialect : Dialect) (definitions : DefinitionMap) (node : Node) : Except Error String :=
  return (← expression dialect definitions node).text

/-- A constant with a validator, exported if wanted. -/
def declaration (exported : Bool) (name : String) (expr : Expr) : String :=
  (if exported then "export " else "") ++ "const " ++ name ++ " = " ++ expr.text

/-- The constant of a definition. -/
def definitionOf (dialect : Dialect) (exported : Bool) (definitions : DefinitionMap)
    (identifier : String) : Except Error String :=
  match definitions.node? identifier with
  | some node => return declaration exported identifier (← expression dialect definitions node)
  | none => throw (.unresolvedReference identifier)

/-- The constants of all definitions, as registered. -/
def emitDefinitions (dialect : Dialect) (exported : Bool) (definitions : DefinitionMap) :
    Except Error (List String) :=
  definitions.keys.mapM (definitionOf dialect exported definitions)

/-- The lines of a module: definitions, dependencies first, and the root. -/
def moduleLines (dialect : Dialect) (exported : Bool) (definitions : DefinitionMap)
    (root : Node) (rootName : String) : Except Error (List String) := do
  let lines ← definitions.dependencyOrder.mapM (definitionOf dialect exported definitions)
  return lines ++ [declaration exported rootName (← expression dialect definitions root)]

/-- A module with one declaration a line. -/
def emitModule (dialect : Dialect) (exported : Bool) (definitions : DefinitionMap)
    (root : Node) (rootName : String) : Except Error String :=
  return "\n".intercalate (← moduleLines dialect exported definitions root rootName) ++ "\n"

end TypeGraph.Validator
