import Mathlib.Data.List.Forall2
import TypeGraph.SchemaGraph.Basic
import TypeGraph.Proofs.Node.Normal

/-!
# What a schema stands for

`SchemaGraph.Represents` says which normal nodes the schemas of a graph stand for. A lazy stands for
a reference to the definition that it is named after; what its target stands for is said by
`Describes`. Building a graph and reading one meet here: the one makes schemas stand for nodes, the
other finds the nodes that they stand for.

Main results:

* `Represents.mono`: what a schema stands for stays as the graph grows.
* `Describes.unique`: a definition has one lazy.
-/

namespace TypeGraph

/-! ## Levels -/

/-- One level of a normal node: a schema over other schemas stands for a node over other nodes. -/
inductive Schema.Level : Schema → Node → List SchemaId → List Node → Prop where
  | primitive (kind : Primitive) : Level (.primitive kind) (.primitive kind) [] []
  | literal (value : Literal) : Level (.literal value) (.literal value) [] []
  | array (id : SchemaId) (element : Node) : Level (.array id) (.array element) [id] [element]
  | set (id : SchemaId) (element : Node) : Level (.set id) (.set element) [id] [element]
  | record (keyId valueId : SchemaId) (key value : Node) :
      Level (.record keyId valueId) (.record key value) [keyId, valueId] [key, value]
  | map (keyId valueId : SchemaId) (key value : Node) :
      Level (.map keyId valueId) (.map key value) [keyId, valueId] [key, value]
  | object (properties : OrderedMap String SchemaId) (shape : List (String × Node))
      (names : properties.keys = shape.map Prod.fst) :
      Level (.object properties) (.object shape) properties.values (shape.map Prod.snd)
  | optional (id : SchemaId) (content : Node) (required : content.isOptional = false) :
      Level (.optional id) (.union content [.undefined]) [id] [content]
  | union (ids : List SchemaId) (first second : Node) (rest : List Node)
      (required : (Node.union first (second :: rest)).isOptional = false) :
      Level (.union ids) (.union first (second :: rest)) ids (first :: second :: rest)
  | tuple (ids : List SchemaId) (first : Node) (rest : List Node) :
      Level (.tuple ids) (.tuple first rest) ids (first :: rest)
  | intersection (ids : List SchemaId) (first : Node) (rest : List Node) :
      Level (.intersection ids) (.intersection first rest) ids (first :: rest)
  | function (ids : List SchemaId) (id : Option SchemaId) (parameters : List Node)
      (returns : Option Node) (arity : ids.length = parameters.length) :
      Level (.function ids id) (.function parameters returns) (ids ++ id.toList)
        (parameters ++ returns.toList)

/-- A level mentions what its parts mention. -/
theorem Schema.Level.mentions_eq {schema : Schema} {node : Node} {ids : List SchemaId}
    {parts : List Node} (h : schema.Level node ids parts) :
    node.mentions = parts.flatMap Node.mentions := by
  cases h with
  | optional id content =>
    rw [List.flatMap_singleton]
    exact List.append_nil _
  | _ => exact Node.mentions_eq Kind.noConfusion

namespace SchemaGraph

/-! ## Lazies -/

/-- The definition that a lazy is named after. -/
def name? (graph : SchemaGraph) (slot : LazyId) : Option String :=
  graph.lazies[slot]?.map LazySlot.name

def target? (graph : SchemaGraph) (slot : LazyId) : Option SchemaId :=
  graph.lazies[slot]?.bind LazySlot.target

theorem lazyName_eq {graph : SchemaGraph} {slot : LazyId} {name : String}
    (h : graph.name? slot = some name) : graph.lazyName slot = name := by
  rw [lazyName, show graph.lazies[slot]?.map LazySlot.name = some name from h, Option.getD_some]

theorem lazyTarget_eq {graph : SchemaGraph} {slot : LazyId} {target : SchemaId}
    (h : graph.target? slot = some target) : graph.lazyTarget slot = .ok target := by
  rw [lazyTarget, show graph.lazies[slot]?.bind LazySlot.target = some target from h]
  rfl

theorem name?_isSome_iff {graph : SchemaGraph} {slot : LazyId} :
    (graph.name? slot).isSome = true ↔ slot < graph.lazies.size := by
  rw [name?, Option.isSome_map, isSome_getElem?]

/-! ## Growth -/

/-- The schemas of the first graph are in the second as they were, and its lazies have their
names. -/
structure Grows (before after : SchemaGraph) : Prop where
  size : before.size ≤ after.size
  get : ∀ {id : SchemaId}, id < before.size → after.get id = before.get id
  name : ∀ {slot : LazyId} {name : String}, before.name? slot = some name →
    after.name? slot = some name

theorem Grows.refl (graph : SchemaGraph) : Grows graph graph :=
  ⟨Nat.le_refl _, fun _ => rfl, id⟩

theorem Grows.trans {g₁ g₂ g₃ : SchemaGraph} (h : Grows g₁ g₂) (h' : Grows g₂ g₃) :
    Grows g₁ g₃ where
  size := Nat.le_trans h.size h'.size
  get hid := (h'.get (Nat.lt_of_lt_of_le hid h.size)).trans (h.get hid)
  name hname := h'.name (h.name hname)

section

variable (graph : SchemaGraph)

@[simp] theorem size_add (schema : Schema) : (graph.add schema).2.size = graph.size + 1 :=
  Array.size_push ..

theorem get_add (schema : Schema) (id : SchemaId) :
    (graph.add schema).2.get id = if id = graph.size then schema else graph.get id := by
  unfold get add size
  rw [Array.getElem?_push]
  split
  · rfl
  · rfl

theorem grows_add (schema : Schema) : graph.Grows (graph.add schema).2 where
  size := by rw [size_add]; exact Nat.le_succ _
  get hid := by rw [get_add, if_neg (Nat.ne_of_lt hid)]
  name := id

theorem name?_addLazy (name : String) (slot : LazyId) :
    (graph.addLazy name).2.name? slot =
      if slot = graph.lazies.size then some name else graph.name? slot := by
  unfold name? addLazy
  rw [Array.getElem?_push]
  split <;> rfl

theorem target?_addLazy (name : String) (slot : LazyId) :
    (graph.addLazy name).2.target? slot = graph.target? slot := by
  unfold target? addLazy
  rw [Array.getElem?_push]
  split
  · rename_i heq
    rw [heq, Array.getElem?_size]
    rfl
  · rfl

theorem grows_addLazy (name : String) : graph.Grows (graph.addLazy name).2 where
  size := Nat.le_refl _
  get _ := rfl
  name {slot other} hname := by
    have hslot := name?_isSome_iff.mp (Option.isSome_of_mem hname)
    rw [name?_addLazy, if_neg (Nat.ne_of_lt hslot), hname]

theorem lazies_size_fill (slot : LazyId) (target : SchemaId) :
    (graph.fill slot target).lazies.size = graph.lazies.size := Array.size_modify ..

theorem name?_fill (slot : LazyId) (target : SchemaId) (other : LazyId) :
    (graph.fill slot target).name? other = graph.name? other := by
  unfold name? fill
  rw [Array.getElem?_modify]
  split
  · rw [Option.map_map]
    rfl
  · rfl

theorem target?_fill {slot : LazyId} {name : String} (h : graph.name? slot = some name)
    (target : SchemaId) (other : LazyId) :
    (graph.fill slot target).target? other =
      if other = slot then some target else graph.target? other := by
  unfold target? fill
  rw [Array.getElem?_modify]
  obtain ⟨lazy, hlazy, -⟩ := Option.map_eq_some_iff.mp h
  split
  · rename_i heq
    rw [if_pos heq.symm, ← heq, hlazy]
    rfl
  · rename_i hne
    rw [if_neg (Ne.symm hne)]

theorem target?_of_fill {slot other : LazyId} {target target' : SchemaId}
    (h : (graph.fill slot target).target? other = some target') :
    target' = target ∨ graph.target? other = some target' := by
  unfold target? fill at h
  rw [Array.getElem?_modify] at h
  split at h
  · obtain ⟨filled, hfilled, htarget⟩ := Option.bind_eq_some_iff.mp h
    obtain ⟨_, -, rfl⟩ := Option.map_eq_some_iff.mp hfilled
    exact .inl (Option.some.inj htarget).symm
  · exact .inr h

theorem grows_fill (slot : LazyId) (target : SchemaId) : graph.Grows (graph.fill slot target) where
  size := Nat.le_refl _
  get _ := rfl
  name hname := (graph.name?_fill slot target _).trans hname

end

/-! ## Representation -/

/-- The schemas stand for the nodes. Schemas come after those that they are made of. -/
inductive Represents (graph : SchemaGraph) : List SchemaId → List Node → Prop where
  | nil : Represents graph [] []
  | level {id : SchemaId} {ids rest : List SchemaId} {node : Node} {parts nodes : List Node}
      (bound : id < graph.size) (below : ∀ child ∈ ids, child < id)
      (level : (graph.get id).Level node ids parts) (inner : Represents graph ids parts)
      (others : Represents graph rest nodes) : Represents graph (id :: rest) (node :: nodes)
  | reference {id : SchemaId} {slot : LazyId} {identifier : String} (displayName : Option String)
      {rest : List SchemaId} {nodes : List Node} (bound : id < graph.size)
      (schema : graph.get id = .lazy slot) (name : graph.name? slot = some identifier)
      (others : Represents graph rest nodes) :
      Represents graph (id :: rest) (.reference identifier displayName :: nodes)

namespace Represents

variable {graph : SchemaGraph} {id : SchemaId} {ids rest : List SchemaId} {node : Node}
  {nodes nodes' : List Node}

theorem mono {graph' : SchemaGraph} (h : Represents graph ids nodes) (hgrows : graph.Grows graph') :
    Represents graph' ids nodes := by
  induction h with
  | nil => exact .nil
  | level bound below level _ _ ihInner ihOthers =>
    have level' := hgrows.get bound ▸ level
    exact .level (Nat.lt_of_lt_of_le bound hgrows.size) below level' ihInner ihOthers
  | reference displayName bound schema name _ ihOthers =>
    have schema' := (hgrows.get bound).trans schema
    exact .reference displayName (Nat.lt_of_lt_of_le bound hgrows.size) schema'
      (hgrows.name name) ihOthers

theorem cons (h : Represents graph [id] [node]) (h' : Represents graph rest nodes) :
    Represents graph (id :: rest) (node :: nodes) := by
  cases h with
  | level bound below level inner _ => exact .level bound below level inner h'
  | reference displayName bound schema name _ => exact .reference displayName bound schema name h'

theorem first (h : Represents graph (id :: rest) (node :: nodes)) :
    Represents graph [id] [node] := by
  cases h with
  | level bound below level inner _ => exact .level bound below level inner .nil
  | reference displayName bound schema name _ => exact .reference displayName bound schema name .nil

theorem others (h : Represents graph (id :: rest) (node :: nodes)) :
    Represents graph rest nodes := by
  cases h with
  | level _ _ _ _ others => exact others
  | reference _ _ _ _ others => exact others

/-- The schemas stand for the nodes one by one. -/
theorem iff_forall₂ : Represents graph ids nodes ↔
    List.Forall₂ (fun id node => Represents graph [id] [node]) ids nodes := by
  -- a list is represented if its members are, each on its own
  constructor
  · intro h
    induction ids generalizing nodes with
    | nil =>
      cases h
      exact .nil
    | cons id rest ih =>
      cases nodes with
      | nil => cases h
      | cons node nodes => exact .cons h.first (ih h.others)
  · intro h
    induction h with
    | nil => exact .nil
    | cons first _ ih => exact first.cons ih

theorem length_eq (h : Represents graph ids nodes) : ids.length = nodes.length :=
  (iff_forall₂.mp h).length_eq

theorem append {ids' : List SchemaId} (h : Represents graph ids nodes)
    (h' : Represents graph ids' nodes') : Represents graph (ids ++ ids') (nodes ++ nodes') :=
  iff_forall₂.mpr (List.rel_append (iff_forall₂.mp h) (iff_forall₂.mp h'))

theorem bound (h : Represents graph ids nodes) : ∀ id ∈ ids, id < graph.size := by
  induction h with
  | nil => exact fun _ h => absurd h List.not_mem_nil
  | level bound _ _ _ _ _ ih => exact List.forall_mem_cons.mpr ⟨bound, ih⟩
  | reference _ bound _ _ _ ih => exact List.forall_mem_cons.mpr ⟨bound, ih⟩

end Represents

/-- The graph has one lazy for each definition that it names, filled with the body of the
definition. -/
structure Describes (graph : SchemaGraph) (definitions : DefinitionMap) : Prop where
  unique : ∀ {slot other : LazyId} {name : String}, graph.name? slot = some name →
    graph.name? other = some name → slot = other
  bodies : ∀ {slot : LazyId} {name : String}, graph.name? slot = some name →
    ∃ target body, graph.target? slot = some target ∧ definitions.node? name = some body ∧
      Represents graph [target] [body]

end SchemaGraph

end TypeGraph
