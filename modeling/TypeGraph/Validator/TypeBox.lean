import TypeGraph.Definition.Basic
import TypeGraph.Node.Optional
import TypeGraph.Validator.Expr

/-!
# TypeBox validators

TypeBox has no construct for big integers, sets, maps and optional tuple elements. Its optional mark
counts on object properties only; anywhere else a union that admits `undefined` is a plain union.
-/

namespace TypeGraph.Validator.TypeBox

/-- A constructor of the namespace `Type`. -/
def method (name : String) (arguments : List Expr) : Expr :=
  .call (.identifier "Type") name arguments

def unsupported {α : Type} (feature : Feature) : Except Error α :=
  throw (.unsupportedFeature .typeBox feature)

def ofPrimitive : Primitive → Except Error Expr
  | .string => pure (method "String" [])
  | .number => pure (method "Number" [])
  | .boolean => pure (method "Boolean" [])
  | .null => pure (method "Null" [])
  | .undefined => pure (method "Undefined" [])
  | .void => pure (method "Void" [])
  | .any => pure (method "Any" [])
  | .unknown => pure (method "Unknown" [])
  | .never => pure (method "Never" [])
  | .date => pure (method "Date" [])
  | .regexp => pure (method "RegExp" [])
  | .bigint => unsupported (.kind (.primitive .bigint))

def ofLiteral : Literal → Except Error Expr
  | .null => pure (method "Null" [])
  | .bigint _ => unsupported .bigintLiteral
  | value => pure (method "Literal" [.literal value])

/-- Whether a node is a union that admits `undefined`. -/
def isOptionalUnion : Node → Bool
  | .union first rest => (Node.union first rest).isOptional
  | _ => false

mutual

/-- The validator of a node, with the definitions that it may refer to. -/
def ofNode (definitions : DefinitionMap) (node : Node) : Except Error Expr :=
  match node with
  | .primitive p => ofPrimitive p
  | .literal value => ofLiteral value
  | .array element => return method "Array" [← ofNode definitions element]
  | .set _ => unsupported (.kind .set)
  | .record key value =>
    return method "Record" [← ofNode definitions key, ← ofNode definitions value]
  | .map _ _ => unsupported (.kind .map)
  | .object shape => return method "Object" [.object (← ofShape definitions shape)]
  | .union first [] => ofNode definitions first
  | .union first rest =>
    return method "Union" [.array ((← ofNode definitions first) :: (← ofAll definitions rest))]
  | .tuple first rest =>
    if (first :: rest).any isOptionalUnion then unsupported .optionalTupleElement
    else return method "Tuple" [.array ((← ofNode definitions first) :: (← ofAll definitions rest))]
  | .intersection first rest =>
    return method "Intersect" [.array ((← ofNode definitions first) :: (← ofAll definitions rest))]
  | .function parameters returns => do
    let returns ← ofReturns definitions returns
    return method "Function" [.array (← ofAll definitions parameters), returns]
  | .reference identifier _ =>
    if definitions.contains identifier then pure (.identifier identifier)
    else throw (.unresolvedReference identifier)
  termination_by 2 * sizeOf node

/-- The validator of a property. The optional mark goes around what is left of an optional union. -/
def ofProperty (definitions : DefinitionMap) (node : Node) : Except Error Expr :=
  match isOptionalUnion node, node.presence with
  | true, .optional content _ => return method "Optional" [← ofNode definitions content]
  | true, _ => pure (method "Optional" [method "Undefined" []])
  | false, _ => ofNode definitions node
  termination_by 2 * sizeOf node + 1

def ofShape (definitions : DefinitionMap) (shape : List (String × Node)) :
    Except Error (List (String × Expr)) :=
  match shape with
  | [] => pure []
  | (name, node) :: rest =>
    return (name, ← ofProperty definitions node) :: (← ofShape definitions rest)
  termination_by 2 * sizeOf shape

def ofAll (definitions : DefinitionMap) (nodes : List Node) : Except Error (List Expr) :=
  match nodes with
  | [] => pure []
  | node :: rest => return (← ofNode definitions node) :: (← ofAll definitions rest)
  termination_by 2 * sizeOf nodes

/-- The validator of a return type; without one nothing is returned. -/
def ofReturns (definitions : DefinitionMap) (returns : Option Node) : Except Error Expr :=
  match returns with
  | none => pure (method "Void" [])
  | some node => ofNode definitions node
  termination_by 2 * sizeOf returns

end

end TypeGraph.Validator.TypeBox
