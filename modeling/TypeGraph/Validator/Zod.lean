import TypeGraph.Definition.Basic
import TypeGraph.Node.Optional
import TypeGraph.Validator.Expr

/-!
# Zod validators

Every type has a Zod validator; only a reference without a definition is an error. A union that
admits `undefined` becomes the validator of what is left of it, marked optional, and a union of one
member that member.
-/

namespace TypeGraph.Validator.Zod

/-- A constructor of the namespace `z`. -/
def method (name : String) (arguments : List Expr) : Expr := .call (.identifier "z") name arguments

def ofPrimitive : Primitive → Expr
  | .regexp => method "instanceof" [.identifier "RegExp"]
  | p => method p.name []

/-- The validators of an intersection: each further one is joined to those before it. -/
def conjunction (first : Expr) (rest : List Expr) : Expr :=
  rest.foldl (fun joined expr => .call joined "and" [expr]) first

def function (parameters : List Expr) : Option Expr → Expr
  | none =>
    if parameters.isEmpty then method "function" []
    else method "function" [method "tuple" [.array parameters]]
  | some returns => method "function" [method "tuple" [.array parameters], returns]

mutual

/-- The validator of a node, with the definitions that it may refer to. -/
def ofNode (definitions : DefinitionMap) (node : Node) : Except Error Expr :=
  match node with
  | .primitive p => pure (ofPrimitive p)
  | .literal value => pure (method "literal" [.literal value])
  | .array element => return method "array" [← ofNode definitions element]
  | .set element => return method "set" [← ofNode definitions element]
  | .record key value =>
    return method "record" [← ofNode definitions key, ← ofNode definitions value]
  | .map key value => return method "map" [← ofNode definitions key, ← ofNode definitions value]
  | .object shape => return method "object" [.object (← ofShape definitions shape)]
  | .union first [] => ofNode definitions first
  | .union first rest =>
    match (Node.union first rest).presence with
    | .optional content _ => return .call (← ofNode definitions content) "optional" []
    | _ =>
      return method "union" [.array ((← ofNode definitions first) :: (← ofAll definitions rest))]
  | .tuple first rest =>
    return method "tuple" [.array ((← ofNode definitions first) :: (← ofAll definitions rest))]
  | .intersection first rest =>
    return conjunction (← ofNode definitions first) (← ofAll definitions rest)
  | .function parameters returns =>
    return function (← ofAll definitions parameters) (← ofOption definitions returns)
  | .reference identifier _ =>
    if definitions.contains identifier then pure (.identifier identifier)
    else throw (.unresolvedReference identifier)
  termination_by sizeOf node
  decreasing_by
    all_goals simp at *
    all_goals omega

def ofShape (definitions : DefinitionMap) (shape : List (String × Node)) :
    Except Error (List (String × Expr)) :=
  match shape with
  | [] => pure []
  | (name, node) :: rest =>
    return (name, ← ofNode definitions node) :: (← ofShape definitions rest)
  termination_by sizeOf shape

def ofAll (definitions : DefinitionMap) (nodes : List Node) : Except Error (List Expr) :=
  match nodes with
  | [] => pure []
  | node :: rest => return (← ofNode definitions node) :: (← ofAll definitions rest)
  termination_by sizeOf nodes

def ofOption (definitions : DefinitionMap) (node : Option Node) : Except Error (Option Expr) :=
  match node with
  | none => pure none
  | some node => return some (← ofNode definitions node)
  termination_by sizeOf node

end

end TypeGraph.Validator.Zod
