import TypeGraph.Error
import TypeGraph.Literal
import TypeGraph.OrderedMap

/-!
# Types

A `Node` is a tree that describes one structural type. Named and recursive types are not part of
the tree: they are kept beside it under an identifier, and `Node.reference` points at them.

Unions, tuples and intersections have a first member and further ones, so an empty one cannot be
written down; `Node.unionOf`, `Node.tupleOf` and `Node.intersectionOf` refuse an empty list. The
property names of an object are distinct in every node built by `Node.objectOf`.
-/

namespace TypeGraph

/-- A structural type. -/
inductive Node where
  | primitive (kind : Primitive)
  | literal (value : Literal)
  | array (element : Node)
  | set (element : Node)
  | record (key : Node) (value : Node)
  | map (key : Node) (value : Node)
  /-- Properties by name, in order. -/
  | object (shape : List (String × Node))
  | union (first : Node) (rest : List Node)
  | tuple (first : Node) (rest : List Node)
  | intersection (first : Node) (rest : List Node)
  | function (parameters : List Node) (returns : Option Node)
  /-- A named type kept beside the tree, with the name of its source type if there is one. -/
  | reference (identifier : String) (displayName : Option String)

namespace Node

instance : Inhabited Node := ⟨primitive .unknown⟩

@[match_pattern] abbrev undefined : Node := primitive .undefined

@[match_pattern] abbrev null : Node := primitive .null

@[match_pattern] abbrev unknown : Node := primitive .unknown

/-! ## Building -/

/-- An object type; a repeated name keeps its first position and takes the last node. -/
def objectOf (properties : List (String × Node)) : Node := object (Entries.ofList properties)

def unionOf : List Node → Except Error Node
  | [] => throw (.emptyMembers .union)
  | first :: rest => pure (union first rest)

def tupleOf : List Node → Except Error Node
  | [] => throw (.emptyMembers .tuple)
  | first :: rest => pure (tuple first rest)

def intersectionOf : List Node → Except Error Node
  | [] => throw (.emptyMembers .intersection)
  | first :: rest => pure (intersection first rest)

/-- One member as it is, several as a union. -/
def unionIfMultiple : List Node → Except Error Node
  | [only] => pure only
  | members => unionOf members

/-- Admits `null` beside the node, even if it does so already. -/
def nullable (node : Node) : Node := union node [null]

/-! ## Kind and children -/

def kind : Node → Kind
  | primitive p => .primitive p
  | literal _ => .literal
  | array _ => .array
  | set _ => .set
  | record _ _ => .record
  | map _ _ => .map
  | object _ => .object
  | union _ _ => .union
  | tuple _ _ => .tuple
  | intersection _ _ => .intersection
  | function _ _ => .function
  | reference _ _ => .reference

/-- The direct parts of a node, in the order in which they are written. -/
def children : Node → List Node
  | primitive _ | literal _ | reference _ _ => []
  | array element | set element => [element]
  | record key value | map key value => [key, value]
  | object shape => shape.map Prod.snd
  | union first rest | tuple first rest | intersection first rest => first :: rest
  | function parameters returns => parameters ++ returns.toList

/-- Changes every direct part of a node and nothing else. -/
def mapChildren (f : Node → Node) : Node → Node
  | primitive p => primitive p
  | literal value => literal value
  | array element => array (f element)
  | set element => set (f element)
  | record key value => record (f key) (f value)
  | map key value => map (f key) (f value)
  | object shape => object (shape.map fun property => (property.1, f property.2))
  | union first rest => union (f first) (rest.map f)
  | tuple first rest => tuple (f first) (rest.map f)
  | intersection first rest => intersection (f first) (rest.map f)
  | function parameters returns => function (parameters.map f) (returns.map f)
  | reference identifier displayName => reference identifier displayName

/-- Changes every direct part of a node in turn, from the first to the last, where changing one may
depend on what became of those before it. -/
def mapChildrenM {m : Type → Type} [Monad m] (f : Node → m Node) : Node → m Node
  | primitive p => return primitive p
  | literal value => return literal value
  | array element => return array (← f element)
  | set element => return set (← f element)
  | record key value => return record (← f key) (← f value)
  | map key value => return map (← f key) (← f value)
  | object shape =>
    return object (← shape.mapM fun property => return (property.1, ← f property.2))
  | union first rest => return union (← f first) (← rest.mapM f)
  | tuple first rest => return tuple (← f first) (← rest.mapM f)
  | intersection first rest => return intersection (← f first) (← rest.mapM f)
  | function parameters returns => return function (← parameters.mapM f) (← returns.mapM f)
  | reference identifier displayName => return reference identifier displayName

theorem sizeOf_lt_of_mem_children {child node : Node} (h : child ∈ node.children) :
    sizeOf child < sizeOf node := by
  cases node with
  | primitive | literal | reference => simp [children] at h
  | array | set => simp_all [children]
  | record =>
    simp only [children, List.mem_cons, List.not_mem_nil, or_false] at h
    rcases h with rfl | rfl <;> rw [record.sizeOf_spec] <;> omega
  | map =>
    simp only [children, List.mem_cons, List.not_mem_nil, or_false] at h
    rcases h with rfl | rfl <;> rw [map.sizeOf_spec] <;> omega
  | object shape =>
    obtain ⟨⟨name, child⟩, hp, rfl⟩ := List.mem_map.1 h
    have := List.sizeOf_lt_of_mem hp
    -- the child is one part of its pair
    rw [Prod.mk.sizeOf_spec] at this
    rw [object.sizeOf_spec]
    show sizeOf child < _
    omega
  | union first rest =>
    rw [union.sizeOf_spec]
    rcases List.mem_cons.1 h with rfl | h
    · omega
    · have := List.sizeOf_lt_of_mem h
      omega
  | tuple first rest =>
    rw [tuple.sizeOf_spec]
    rcases List.mem_cons.1 h with rfl | h
    · omega
    · have := List.sizeOf_lt_of_mem h
      omega
  | intersection first rest =>
    rw [intersection.sizeOf_spec]
    rcases List.mem_cons.1 h with rfl | h
    · omega
    · have := List.sizeOf_lt_of_mem h
      omega
  | function parameters returns =>
    rw [function.sizeOf_spec]
    rcases List.mem_append.1 h with h | h
    · have := List.sizeOf_lt_of_mem h
      omega
    · obtain rfl : returns = some child := by simpa using h
      rw [Option.some.sizeOf_spec]
      omega

/-- A property of nodes holds if it passes from the direct parts of a node to the node. -/
theorem inductionOnChildren {motive : Node → Prop}
    (step : ∀ node, (∀ child ∈ node.children, motive child) → motive node) (node : Node) :
    motive node :=
  step node fun child _ => inductionOnChildren step child
  termination_by sizeOf node
  decreasing_by exact sizeOf_lt_of_mem_children ‹_›

end Node

end TypeGraph
