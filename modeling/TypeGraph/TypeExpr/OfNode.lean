import TypeGraph.TypeExpr.Basic
import TypeGraph.Definition.Basic
import TypeGraph.Node.Optional

/-!
# Declaring types in TypeScript

Every node has a TypeScript type, except for references without a definition and number literals
that are not finite. Properties and tuple slots that admit `undefined` are marked optional and get
the type of what is left.
-/

namespace TypeGraph.TypeExpr

def ofPrimitive : Primitive → TypeExpr
  | .string => keyword .string
  | .number => keyword .number
  | .boolean => keyword .boolean
  | .null => literal .null
  | .undefined => keyword .undefined
  | .void => keyword .void
  | .any => keyword .any
  | .unknown => keyword .unknown
  | .never => keyword .never
  | .bigint => keyword .bigint
  | .date => reference "Date" []
  | .regexp => reference "RegExp" []

def ofLiteral : Literal → Except Error TypeExpr
  | .number value =>
    if value.isFinite then pure (literal (.number value))
    else throw (.unsupportedFeature .typeScript .nonFiniteNumber)
  | value => pure (literal value)

/-- Parameters are named by their position. -/
def parametersOf (types : List TypeExpr) : List (String × TypeExpr) :=
  types.mapIdx fun i type => ("args_" ++ toString i, type)

mutual

/-- The type of a node, with the definitions that it may refer to. -/
def ofNode (definitions : DefinitionMap) (node : Node) : Except Error TypeExpr :=
  match node with
  | .primitive p => pure (ofPrimitive p)
  | .literal value => ofLiteral value
  | .array element => return array (← ofNode definitions element)
  | .set element => return reference "Set" [← ofNode definitions element]
  | .record key value =>
    return reference "Record" [← ofNode definitions key, ← ofNode definitions value]
  | .map key value =>
    return reference "Map" [← ofNode definitions key, ← ofNode definitions value]
  | .object shape => return object (← ofShape definitions shape)
  | .union first [] => ofNode definitions first
  | .union first rest =>
    return union ((← ofNode definitions first) :: (← ofAll definitions rest))
  | .tuple first rest =>
    return tuple ((← ofSlot definitions first) :: (← ofSlots definitions rest))
  | .intersection first rest =>
    return intersection ((← ofNode definitions first) :: (← ofAll definitions rest))
  | .function parameters returns => do
    let parameters ← ofAll definitions parameters
    return function (parametersOf parameters) (← ofReturns definitions returns)
  | .reference identifier _ =>
    if definitions.contains identifier then pure (reference identifier [])
    else throw (.unresolvedReference identifier)
  termination_by 2 * sizeOf node

/-- The type of what may stand in a property or a slot, and whether the place may be empty. -/
def ofSlot (definitions : DefinitionMap) (node : Node) : Except Error (Bool × TypeExpr) :=
  match node.presence with
  | .optional content _ => return (true, ← ofNode definitions content)
  | .vacant => pure (true, keyword .undefined)
  | .required => return (false, ← ofNode definitions node)
  termination_by 2 * sizeOf node + 1

def ofSlots (definitions : DefinitionMap) (nodes : List Node) :
    Except Error (List (Bool × TypeExpr)) :=
  match nodes with
  | [] => pure []
  | node :: rest => return (← ofSlot definitions node) :: (← ofSlots definitions rest)
  termination_by 2 * sizeOf nodes

def ofShape (definitions : DefinitionMap) (shape : List (String × Node)) :
    Except Error (List (String × Bool × TypeExpr)) :=
  match shape with
  | [] => pure []
  | (name, node) :: rest =>
    return (name, ← ofSlot definitions node) :: (← ofShape definitions rest)
  termination_by 2 * sizeOf shape

def ofAll (definitions : DefinitionMap) (nodes : List Node) : Except Error (List TypeExpr) :=
  match nodes with
  | [] => pure []
  | node :: rest => return (← ofNode definitions node) :: (← ofAll definitions rest)
  termination_by 2 * sizeOf nodes

/-- The type of what a function returns; without one nothing is returned. -/
def ofReturns (definitions : DefinitionMap) (returns : Option Node) : Except Error TypeExpr :=
  match returns with
  | none => pure (keyword .void)
  | some node => ofNode definitions node
  termination_by 2 * sizeOf returns

end

end TypeGraph.TypeExpr

namespace TypeGraph.TypeAlias

/-- The aliases of all definitions, as registered. -/
def ofDefinitions (definitions : DefinitionMap) : Except Error (List TypeAlias) :=
  definitions.entries.mapM fun entry =>
    return ⟨entry.1, ← TypeExpr.ofNode definitions entry.2.node⟩

/-- The aliases of all definitions and, behind them, of a root. -/
def ofModule (definitions : DefinitionMap) (root : Node) (rootName : String) :
    Except Error (List TypeAlias) := do
  let aliases ← ofDefinitions definitions
  return aliases ++ [⟨rootName, ← TypeExpr.ofNode definitions root⟩]

end TypeGraph.TypeAlias
