import TypeGraph.Node.Basic

/-!
# Equality of types

Two nodes are equal if they are built alike from equal parts. The properties of objects are compared
by name, whatever their order; literals are compared by value.
-/

namespace TypeGraph.Node

mutual

def beq : Node → Node → Bool
  | primitive p, primitive q => p == q
  | literal a, literal b => a.beq b
  | array a, array b => beq a b
  | set a, set b => beq a b
  | record key value, record key' value' => beq key key' && beq value value'
  | map key value, map key' value' => beq key key' && beq value value'
  | object shape, object shape' => shape.length == shape'.length && beqShape shape shape'
  | union first rest, union first' rest' => beq first first' && beqAll rest rest'
  | tuple first rest, tuple first' rest' => beq first first' && beqAll rest rest'
  | intersection first rest, intersection first' rest' => beq first first' && beqAll rest rest'
  | function parameters returns, function parameters' returns' =>
    beqAll parameters parameters' && beqOption returns returns'
  | reference identifier displayName, reference identifier' displayName' =>
    identifier == identifier' && displayName == displayName'
  | _, _ => false

/-- Whether every property has an equal one of the same name in `other`. -/
def beqShape : List (String × Node) → List (String × Node) → Bool
  | [], _ => true
  | (name, node) :: rest, other =>
    (match Entries.get? name other with
      | some node' => beq node node'
      | none => false) && beqShape rest other

def beqAll : List Node → List Node → Bool
  | [], [] => true
  | node :: rest, node' :: rest' => beq node node' && beqAll rest rest'
  | _, _ => false

def beqOption : Option Node → Option Node → Bool
  | none, none => true
  | some node, some node' => beq node node'
  | _, _ => false

end

end TypeGraph.Node
