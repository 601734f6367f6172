import TypeGraph.Checker.Walk
import TypeGraph.Proofs.Lists

/-!
# One level of a type

`Checker.readType` is written over any monad, so that it can carry a registry along. This module
says without a monad what one level of a type is: a `Shape`, in which the types inside are left
open. `TypeInfo.shape` is the dispatch, first match wins:

1. what a flag says, a literal, `true` or `false`;
2. the built-in containers and classes, by symbol;
3. a type written through `Record` with two arguments;
4. tuples, then index signatures, call signatures and properties taken together;
5. unions, intersections, and what is left over.

A type that comes to step 4 without a match and has a name is *named* (`TypeInfo.isNamed`); where
names count, it is not read at all but referred to.

Main results:

* `Checker.readType_eq` and `Checker.readStructure_eq`: reading one level is visiting the types
  inside from left to right (`Shape.inner`) and then either halting for a reason that the visits
  have no part in (`Shape.halt?`) or putting the nodes together (`Shape.build`).
-/

namespace TypeGraph

/-! ## Shapes -/

/-- One level of a type; the types inside are open. -/
inductive Shape where
  | leaf (node : Node)
  /-- Either `true` or `false`; which one, the rendering of the type says. -/
  | boolean
  | array (element : TypeId)
  | set (element : TypeId)
  | map (key : TypeId) (value : TypeId)
  | record (key : TypeId) (value : TypeId)
  | tuple (first : TupleElement) (rest : List TupleElement)
  /-- The index signature with the node of its key, the call signatures, the properties. -/
  | object (index : Option (Node × TypeId)) (signatures : List Signature)
      (properties : List Property)
  | union (first : TypeId) (rest : List TypeId)
  | intersection (first : TypeId) (rest : List TypeId)
  /-- A union, tuple or intersection without members. -/
  | empty (kind : Kind)
  /-- Nothing known; `inner` are the types that are visited before this turns out. -/
  | unknown (inner : List TypeId)

namespace Shape

def ofLiteral : RawLiteral → Shape
  | .string value => leaf (.literal (.string value))
  | .number value => leaf (.literal (.number value))
  | .bigint negative digits =>
    match Integer.ofParts? negative digits with
    | some n => leaf (.literal (.bigint n))
    | none => unknown []

def ofBuiltin : Builtin → List TypeId → Shape
  | .array, element :: _ => array element
  | .set, element :: _ => set element
  | .map, key :: value :: _ => map key value
  | .map, [key] => unknown [key]
  | .date, _ => leaf (.primitive .date)
  | .regexp, _ => leaf (.primitive .regexp)
  | _, [] => unknown []

/-! ### The types inside -/

def indexTypes (index : Option (Node × TypeId)) : List TypeId := (index.map Prod.snd).toList

def callTypes (signatures : List Signature) : List TypeId :=
  signatures.flatMap fun signature => signature.parameters ++ [signature.returns]

/-- The types inside, in the order in which they are visited. -/
def inner : Shape → List TypeId
  | leaf _ | boolean | empty _ => []
  | array element | set element => [element]
  | map key value | record key value => [key, value]
  | tuple first rest => (first :: rest).map TupleElement.type
  | object index signatures properties =>
    indexTypes index ++ callTypes signatures ++ properties.map Property.type
  | union first rest | intersection first rest => first :: rest
  | unknown inner => inner

/-! ### Putting nodes together -/

/-- What stands in a slot or property. -/
def slot (optional : Bool) (node : Node) : Node := if optional then node.optional else node

/-- The functions of call signatures, from the nodes of their parameters and results. -/
def functions : List Signature → List Node → List Node
  | [], _ => []
  | signature :: rest, nodes =>
    .function (nodes.take signature.parameters.length) nodes[signature.parameters.length]?
      :: functions rest (nodes.drop (signature.parameters.length + 1))

def indexRecords (index : Option (Node × TypeId)) (nodes : List Node) : List Node :=
  index.toList.zipWith (fun entry value => .record entry.1 value) nodes

def propertiesOf (properties : List Property) (nodes : List Node) : List (String × Node) :=
  properties.zipWith (fun property node => (property.name, slot property.optional node)) nodes

def propertyObjects (properties : List Property) (nodes : List Node) : List Node :=
  if properties.isEmpty then [] else [.objectOf (propertiesOf properties nodes)]

/-- The record, the function or functions, and the object of an object type, as far as it has
them. -/
def parts (index : Option (Node × TypeId)) (signatures : List Signature)
    (properties : List Property) (nodes : List Node) : List Node :=
  let (indexed, others) := nodes.splitAt (indexTypes index).length
  let (called, others) := others.splitAt (callTypes signatures).length
  indexRecords index indexed ++ (Node.unionOrSingle? (functions signatures called)).toList
    ++ propertyObjects properties others

def conjunction : List Node → Node
  | [] => .object []
  | [only] => only
  | first :: rest => .intersection first rest

/-- The node of a level, from the nodes of the types inside and the rendering of the type. -/
def build (text : Option String) : Shape → List Node → Node
  | leaf node, _ => node
  | boolean, _ => .literal (.boolean (text == some "true"))
  | array _, [element] => .array element
  | set _, [element] => .set element
  | map _ _, [key, value] => .map key value
  | record _ _, [key, value] => .record key value
  | tuple first rest, node :: nodes =>
    .tuple (slot first.optional node)
      (rest.zipWith (fun element node => slot element.optional node) nodes)
  | object index signatures properties, nodes =>
    conjunction (parts index signatures properties nodes)
  | union _ _, first :: rest => .union first rest
  | intersection _ _, first :: rest => .intersection first rest
  | _, _ => .unknown

/-- Why a level halts once the types inside are visited; no `text` means a rendering without
end. -/
def halt? (text : Option String) : Shape → Option Halt
  | boolean => if text.isNone then some .endless else none
  | empty kind => some (.failed (.emptyMembers kind))
  | unknown _ => some (text.elim .endless fun text => .failed (.unknownType text))
  | _ => none

end Shape

/-! ## The dispatch -/

namespace TypeInfo

/-- The index signatures as one, with the node of its key. -/
def index? (info : TypeInfo) : Option (Node × TypeId) :=
  match info.stringIndex, info.numberIndex with
  | none, none => none
  | some value, none => some (.primitive .string, value)
  | none, some value => some (.primitive .number, value)
  | some value, some _ => some (.union (.primitive .string) [.primitive .number], value)

/-- The shape of a type that is known whatever its name. -/
def recognised? (info : TypeInfo) : Option Shape :=
  match info.primitive?, info.literal with
  | some primitive, _ => some (.leaf (.primitive primitive))
  | none, some literal => some (.ofLiteral literal)
  | none, none =>
    if info.flags.contains .booleanLiteral then some .boolean
    else match info.symbol.bind Builtin.ofSymbol?, info.record? with
      | some builtin, _ => some (.ofBuiltin builtin info.typeArguments)
      | none, some (key, value) => some (.record key value)
      | none, none => none

/-- The shape that the structure of a type gives it. -/
def structural (info : TypeInfo) : Shape :=
  if info.isObject then
    match info.tuple with
    | some (first :: rest) => .tuple first rest
    | some [] => .empty .tuple
    | none => .object info.index? info.signatures info.properties
  else match info.union, info.intersection with
    | some (first :: rest), _ => .union first rest
    | some [], _ => .empty .union
    | none, some (first :: rest) => .intersection first rest
    | none, some [] => .empty .intersection
    | none, none => .unknown []

def shape (info : TypeInfo) : Shape := info.recognised?.getD info.structural

/-- Whether a type goes by its name where names count. -/
def isNamed (info : TypeInfo) : Bool :=
  info.recognised?.isNone && (info.aliasName.isSome || info.isDeclared)

end TypeInfo

/-! ## Reading one level -/

namespace Checker

section

variable {n : Type → Type} [Monad n]

/-- Visits the types inside a shape and puts their nodes together. -/
def readShape (checker : Checker) (visit : TypeId → ExceptT Halt n Node) (type : TypeId)
    (shape : Shape) : ExceptT Halt n Node := do
  let nodes ← shape.inner.mapM visit
  match shape.halt? (checker.text type) with
  | some halt => throw halt
  | none => return shape.build (checker.text type) nodes

variable [LawfulMonad n] (checker : Checker) (visit : TypeId → ExceptT Halt n Node)

theorem unknownType_eq {α : Type} (type : TypeId) :
    (checker.unknownType type : ExceptT Halt n α) =
      throw ((checker.text type).elim .endless fun text => .failed (.unknownType text)) := by
  unfold unknownType textOf
  cases checker.text type with
  | none =>
    apply ExceptT.ext
    simp
  | some text => simp

theorem readLiteral_eq (type : TypeId) (raw : RawLiteral) :
    (do return Node.literal (← checker.readLiteral type raw) : ExceptT Halt n Node) =
      checker.readShape visit type (.ofLiteral raw) := by
  unfold readLiteral readShape Shape.ofLiteral
  cases raw with
  | string value => simp [Shape.inner, Shape.halt?, Shape.build]
  | number value => simp [Shape.inner, Shape.halt?, Shape.build]
  | bigint negative digits =>
    cases h : Integer.ofParts? negative digits with
    | none => simp [Shape.inner, Shape.halt?, unknownType_eq, h]
    | some value => simp [Shape.inner, Shape.halt?, Shape.build, h]

theorem readBuiltin_eq (type : TypeId) (builtin : Builtin) :
    checker.readBuiltin visit type builtin =
      checker.readShape visit type
        (.ofBuiltin builtin (checker.describe type).typeArguments) := by
  -- no arguments, one, or at least two: no built-in looks at a third
  rcases ha : (checker.describe type).typeArguments with _ | ⟨key, _ | ⟨value, rest⟩⟩ <;>
    cases builtin <;>
    simp [readBuiltin, readArgument, readShape, Shape.ofBuiltin, Shape.inner, Shape.halt?,
      Shape.build, unknownType_eq, ha]

/-! ### Objects

The parts of an object type are read by nested loops. Each loop is one pass over the types that it
visits, so the passes can be joined to one over all types inside. -/

theorem mapM_slots {ι α : Type} (items : List ι) (typeOf : ι → TypeId) (optionalOf : ι → Bool)
    (f : ι → Node → α) :
    (items.mapM fun item => do
      return f item (← readSlot visit (typeOf item) (optionalOf item))) =
      (do let nodes ← (items.map typeOf).mapM visit
          return items.zipWith (fun item node => f item (Shape.slot (optionalOf item) node))
            nodes) := by
  have hslots :=
    mapM_zipWith visit typeOf (fun item node => f item (Shape.slot (optionalOf item) node)) items
  simpa only [readSlot, Shape.slot, bind_assoc, pure_bind] using hslots

theorem mapM_signatures (signatures : List Signature) :
    (signatures.mapM fun signature => do
      let parameters ← signature.parameters.mapM visit
      return Node.function parameters (some (← visit signature.returns))) =
      (do let nodes ← (Shape.callTypes signatures).mapM visit
          return Shape.functions signatures nodes) := by
  induction signatures with
  | nil => simp [Shape.functions, Shape.callTypes]
  | cons s rest ih =>
    -- the parameters of a signature are one pass, what it returns starts the other
    have hsplit := mapM_splitAt visit s.parameters (s.returns :: Shape.callTypes rest)
      (fun parameters nodes => (pure (.function parameters nodes[0]? ::
        Shape.functions rest (nodes.drop 1)) : ExceptT Halt n (List Node)))
    have htypes : Shape.callTypes (s :: rest) =
        s.parameters ++ (s.returns :: Shape.callTypes rest) := by
      simp [Shape.callTypes]
    rw [List.mapM_cons, ih, htypes]
    simp only [List.getElem?_drop, List.drop_drop, Nat.add_zero] at hsplit
    simp only [Shape.functions]
    rw [hsplit]
    simp

theorem readIndexes_eq (info : TypeInfo) :
    readIndexes visit info =
      (do let nodes ← (Shape.indexTypes info.index?).mapM visit
          return (Shape.indexRecords info.index? nodes).head?) := by
  unfold readIndexes TypeInfo.index? Shape.indexTypes Shape.indexRecords
  -- none, one of the two, or both index signatures
  rcases info.stringIndex with _ | string <;> rcases info.numberIndex with _ | number <;> simp

theorem readProperties_eq (info : TypeInfo) :
    readProperties visit info =
      (do let nodes ← (info.properties.map Property.type).mapM visit
          return (Shape.propertyObjects info.properties nodes).head?) := by
  have hslots := mapM_slots visit info.properties Property.type Property.optional
    fun property node => (property.name, node)
  unfold readProperties
  rw [hslots]
  simp only [bind_assoc, pure_bind]
  unfold Shape.propertyObjects Shape.propertiesOf
  cases info.properties with
  | nil => simp
  | cons first rest => simp

omit [LawfulMonad n] in
theorem toList_head?_indexRecords (index : Option (Node × TypeId)) (nodes : List Node) :
    (Shape.indexRecords index nodes).head?.toList = Shape.indexRecords index nodes := by
  unfold Shape.indexRecords
  cases index with
  | none => simp
  | some entry => cases nodes <;> simp

omit [LawfulMonad n] in
theorem toList_head?_propertyObjects (properties : List Property) (nodes : List Node) :
    (Shape.propertyObjects properties nodes).head?.toList =
      Shape.propertyObjects properties nodes := by
  unfold Shape.propertyObjects
  split <;> rfl

theorem readMembers_eq (type : TypeId) (info : TypeInfo) (ht : info.tuple = none) :
    readObject visit info =
      checker.readShape visit type (.object info.index? info.signatures info.properties) := by
  -- the outer split parts the index from the rest, the inner one calls from properties
  have houter := mapM_splitAt visit (Shape.indexTypes info.index?)
    (Shape.callTypes info.signatures ++ info.properties.map Property.type)
    fun indexed nodes => (pure (Shape.conjunction (Shape.indexRecords info.index? indexed
      ++ (Node.unionOrSingle? (Shape.functions info.signatures
          (nodes.take (Shape.callTypes info.signatures).length))).toList
      ++ Shape.propertyObjects info.properties
          (nodes.drop (Shape.callTypes info.signatures).length))) : ExceptT Halt n Node)
  have hinner (indexed : List Node) := mapM_splitAt visit (Shape.callTypes info.signatures)
    (info.properties.map Property.type)
    fun called nodes => (pure (Shape.conjunction (Shape.indexRecords info.index? indexed
      ++ (Node.unionOrSingle? (Shape.functions info.signatures called)).toList
      ++ Shape.propertyObjects info.properties nodes)) : ExceptT Halt n Node)
  unfold readObject readShape
  simp only [ht, Shape.inner, Shape.halt?, Shape.build, Shape.parts, List.splitAt_eq,
    List.append_assoc] at houter hinner ⊢
  rw [houter]
  simp only [hinner, readIndexes_eq, readSignatures, mapM_signatures, readProperties_eq,
    bind_assoc, pure_bind, toList_head?_indexRecords, toList_head?_propertyObjects]
  congr 1
  funext indexed
  congr 1
  funext called
  congr 1
  funext nodes
  unfold Shape.conjunction
  split <;> simp_all

theorem readObject_eq (type : TypeId) (info : TypeInfo) (h : info.isObject = true) :
    readObject visit info = checker.readShape visit type info.structural := by
  -- a tuple with or without elements, or an object proper
  rcases ht : info.tuple with _ | ⟨_ | ⟨first, rest⟩⟩
  · rw [checker.readMembers_eq visit type info ht]
    simp [TypeInfo.structural, h, ht]
  · simp [readObject, readShape, TypeInfo.structural, h, ht, Shape.inner, Shape.halt?]
    rfl
  · have hslots := mapM_slots visit (first :: rest) TupleElement.type TupleElement.optional
      fun _ node => node
    simp only [bind_pure] at hslots
    simp only [readObject, readShape, TypeInfo.structural, h, ht, if_true, hslots, Shape.inner,
      Shape.halt?, List.map_cons, List.mapM_cons, bind_assoc, pure_bind]
    rfl

/-! ### The whole level -/

/-- Reading the structure of a type is reading its structural shape. -/
theorem readStructure_eq (type : TypeId) :
    checker.readStructure visit type =
      checker.readShape visit type (checker.describe type).structural := by
  unfold readStructure
  by_cases ho : (checker.describe type).isObject = true
  · simp only [ho, if_true]
    exact checker.readObject_eq visit type _ ho
  · unfold readShape TypeInfo.structural
    simp only [ho, Bool.false_eq_true, if_false]
    -- a union comes before an intersection, and either may be without members
    rcases (checker.describe type).union with _ | ⟨_ | ⟨first, rest⟩⟩
    · rcases (checker.describe type).intersection with _ | ⟨_ | ⟨first, rest⟩⟩
      · simp [unknownType_eq, Shape.inner, Shape.halt?]
      · simp [Shape.inner, Shape.halt?]
        rfl
      · simp [Shape.inner, Shape.halt?]
        rfl
    · simp [Shape.inner, Shape.halt?]
      rfl
    · simp [Shape.inner, Shape.halt?]
      rfl

/-- Reading a type is reading its shape if that is known whatever the name, and else what is done
with names. -/
theorem readType_eq (readNamed : TypeId → ExceptT Halt n Node) (type : TypeId) :
    checker.readType visit readNamed type =
      match (checker.describe type).recognised? with
      | some shape => checker.readShape visit type shape
      | none => readNamed type := by
  unfold readType TypeInfo.recognised?
  simp only []
  -- one question after the other, as the type is asked
  rcases hp : (checker.describe type).primitive? with _ | primitive
  · rcases hl : (checker.describe type).literal with _ | literal
    · by_cases hb : (checker.describe type).flags.contains .booleanLiteral = true
      · simp only [hb, if_true]
        unfold readShape textOf
        cases ht : checker.text type with
        | none =>
          apply ExceptT.ext
          simp [Shape.inner, Shape.halt?]
        | some text => simp [Shape.inner, Shape.halt?, Shape.build]
      · simp only [hb, Bool.false_eq_true, if_false]
        rcases (checker.describe type).symbol.bind Builtin.ofSymbol? with _ | builtin
        · rcases (checker.describe type).record? with _ | ⟨key, value⟩
          · rfl
          · simp [readShape, Shape.inner, Shape.halt?, Shape.build]
        · exact checker.readBuiltin_eq visit type builtin
    · exact checker.readLiteral_eq visit type literal
  · simp [readShape, Shape.inner, Shape.halt?, Shape.build]

end

end Checker

end TypeGraph
