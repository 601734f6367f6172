import TypeGraph.Node.Basic

/-!
# References in a type

Which identifiers a node mentions, and putting other nodes in the place of its references. Both
visit the same places in the same order, that of `Node.children`.
-/

namespace TypeGraph.Node

mutual

/-- The identifiers of all references in the node, from left to right. -/
def mentions : Node → List String
  | primitive _ | literal _ => []
  | array element | set element => mentions element
  | record key value | map key value => mentions key ++ mentions value
  | object shape => mentionsInShape shape
  | union first rest | tuple first rest | intersection first rest =>
    mentions first ++ mentionsInAll rest
  | function parameters returns => mentionsInAll parameters ++ mentionsInOption returns
  | reference identifier _ => [identifier]

def mentionsInShape : List (String × Node) → List String
  | [] => []
  | (_, node) :: rest => mentions node ++ mentionsInShape rest

def mentionsInAll : List Node → List String
  | [] => []
  | node :: rest => mentions node ++ mentionsInAll rest

def mentionsInOption : Option Node → List String
  | none => []
  | some node => mentions node

end

/-- The identifiers of the references in the node, each once, in the order of first mention. -/
def references (node : Node) : List String := node.mentions.eraseDups

/-- Notes the identifiers of the references in the node behind those found before, each once. -/
def collect (found : List String) : Node → List String
  | reference identifier _ => if found.contains identifier then found else found ++ [identifier]
  | node => node.children.attach.foldl (fun found child => collect found child.1) found
  termination_by node => sizeOf node
  decreasing_by exact sizeOf_lt_of_mem_children child.2

mutual

/-- Puts `replacement identifier` in the place of every reference that has one. -/
def substitute (replacement : String → Option Node) : Node → Node
  | primitive p => primitive p
  | literal value => literal value
  | array element => array (substitute replacement element)
  | set element => set (substitute replacement element)
  | record key value => record (substitute replacement key) (substitute replacement value)
  | map key value => map (substitute replacement key) (substitute replacement value)
  | object shape => object (substituteInShape replacement shape)
  | union first rest => union (substitute replacement first) (substituteInAll replacement rest)
  | tuple first rest => tuple (substitute replacement first) (substituteInAll replacement rest)
  | intersection first rest =>
    intersection (substitute replacement first) (substituteInAll replacement rest)
  | function parameters returns =>
    function (substituteInAll replacement parameters) (substituteInOption replacement returns)
  | reference identifier displayName =>
    (replacement identifier).getD (reference identifier displayName)

def substituteInShape (replacement : String → Option Node) :
    List (String × Node) → List (String × Node)
  | [] => []
  | (name, node) :: rest =>
    (name, substitute replacement node) :: substituteInShape replacement rest

def substituteInAll (replacement : String → Option Node) : List Node → List Node
  | [] => []
  | node :: rest => substitute replacement node :: substituteInAll replacement rest

def substituteInOption (replacement : String → Option Node) : Option Node → Option Node
  | none => none
  | some node => some (substitute replacement node)

end

end TypeGraph.Node
