import TypeGraph.Proofs.Lists
import TypeGraph.Proofs.Node.Occurs
import TypeGraph.SchemaGraph.ToNode

/-!
# One level of an import

A schema that is no lazy is read in two steps: the schemas that it is made of, in order, and then
the node that their nodes are put together to (`SchemaGraph.importWithin_eq`). The second step fails
for unions, tuples and intersections without members, and for nothing else. All schemas but unions,
lazies and those that admit no value have a head, which is that of their nodes
(`Schema.Assembled.of_head?`).
-/

namespace TypeGraph

namespace Schema

/-- The node of a schema from the nodes of its children. A lazy has none of its own. -/
def assemble : Schema → List Node → Except Error Node
  | primitive kind, _ => .ok (.primitive kind)
  | literal value, _ => .ok (.literal value)
  | array _, parts => .ok (.array parts[0]!)
  | set _, parts => .ok (.set parts[0]!)
  | record _ _, parts => .ok (.record parts[0]! parts[1]!)
  | map _ _, parts => .ok (.map parts[0]! parts[1]!)
  | object properties, parts => .ok (.objectOf (properties.keys.zip parts))
  | optional _, parts => .ok parts[0]!.optional
  | union _, parts => Node.unionOf parts
  | tuple _, parts => Node.tupleOf parts
  | intersection _, parts => Node.intersectionOf parts
  | function parameters _, parts =>
    .ok (.function (parts.take parameters.length) (parts.drop parameters.length).head?)
  | lazy slot, _ => .error (.unresolvedLazy slot)

/-- What a schema shows by itself. Unions, optional schemas and lazies show what other schemas show,
and where a member is missing there is nothing to show. -/
def head? : Schema → Option Node
  | primitive kind => some (.primitive kind)
  | literal value => some (.literal value)
  | array _ => some (.array .unknown)
  | set _ => some (.set .unknown)
  | record _ _ => some (.record .unknown .unknown)
  | map _ _ => some (.map .unknown .unknown)
  | object properties => some (.object (properties.keys.map fun name => (name, .unknown)))
  | tuple (_ :: rest) => some (.tuple .unknown (rest.map fun _ => .unknown))
  | intersection (_ :: rest) => some (.intersection .unknown (rest.map fun _ => .unknown))
  | function parameters returns =>
    some (.function (parameters.map fun _ => .unknown) (returns.map fun _ => .unknown))
  | union _ | tuple [] | intersection [] | optional _ | lazy _ => none

/-- Unions, tuples and intersections have a member. -/
def Populated : Schema → Prop
  | union members | tuple members | intersection members => members ≠ []
  | _ => True

section

variable {schema : Schema} {parts : List Node} {node head : Node}

/-! ## What is put together -/

theorem exists_assemble (hplain : ∀ slot, schema ≠ .lazy slot) (hpopulated : schema.Populated)
    (hlength : parts.length = schema.children.length) :
    ∃ node, schema.assemble parts = .ok node := by
  -- a list of parts for a list of members that is not empty is not empty either
  have hcons {members : List SchemaId} (hmembers : members ≠ [])
      (hlength : parts.length = members.length) :
      ∃ first rest, parts = first :: rest := by
    refine List.exists_cons_of_length_pos ?_
    rw [hlength]
    exact List.length_pos_iff.mpr hmembers
  cases schema with
  | «lazy» slot => exact absurd rfl (hplain slot)
  | union members | tuple members | intersection members =>
    obtain ⟨first, rest, rfl⟩ := hcons hpopulated hlength
    exact ⟨_, rfl⟩
  | _ => exact ⟨_, rfl⟩

theorem error_of_not_populated (h : ¬ schema.Populated)
    (hlength : parts.length = schema.children.length) :
    ∃ error, schema.assemble parts = .error error := by
  cases schema with
  | union members | tuple members | intersection members =>
    obtain rfl := Classical.not_not.mp h
    obtain rfl := List.length_eq_zero_iff.mp hlength
    exact ⟨_, rfl⟩
  | _ => exact absurd trivial h

/-- The node of a schema with a head has this head, and the parts for children. -/
theorem head_of_assemble (h : schema.assemble parts = .ok node)
    (hlength : parts.length = schema.children.length) (hhead : schema.head? = some head) :
    node.head = head ∧ node.children = parts ∧ node.kind ≠ .union ∧ node.kind ≠ .reference := by
  have hconst {ids : List SchemaId} {parts : List Node} (hlength : parts.length = ids.length) :
      parts.map (fun _ => Node.unknown) = ids.map fun _ => Node.unknown := by
    rw [List.map_const', List.map_const', hlength]
  cases schema with
  | union | optional | «lazy» => cases hhead
  | primitive | literal =>
    cases h
    cases hhead
    obtain rfl := List.length_eq_zero_iff.mp hlength
    exact ⟨rfl, rfl, Kind.noConfusion, Kind.noConfusion⟩
  | array | set =>
    cases h
    cases hhead
    obtain ⟨part, rfl⟩ := List.length_eq_one_iff.mp hlength
    exact ⟨rfl, rfl, Kind.noConfusion, Kind.noConfusion⟩
  | record | map =>
    cases h
    cases hhead
    obtain ⟨key, value, rfl⟩ := List.length_eq_two.mp hlength
    exact ⟨rfl, rfl, Kind.noConfusion, Kind.noConfusion⟩
  | object properties =>
    cases h
    cases hhead
    have hlength : properties.keys.length = parts.length := by
      rw [hlength, OrderedMap.keys, List.length_map]
      exact (List.length_map _).symm
    -- the names are distinct, so the properties are as they are listed
    have hnames : (properties.keys.zip parts).map Prod.fst = properties.keys :=
      List.map_fst_zip (Nat.le_of_eq hlength)
    have hnodup : ((properties.keys.zip parts).map Prod.fst).Nodup := by
      rw [hnames]
      exact properties.keys_nodup
    rw [Node.objectOf, Entries.ofList_eq_self hnodup]
    refine ⟨?_, List.map_snd_zip (Nat.le_of_eq hlength.symm), Kind.noConfusion, Kind.noConfusion⟩
    refine congrArg Node.object ?_
    calc (properties.keys.zip parts).map (fun property => (property.1, Node.unknown))
        = ((properties.keys.zip parts).map Prod.fst).map fun name => (name, Node.unknown) := by
          rw [List.map_map]
          rfl
      _ = _ := by rw [hnames]
  | tuple ids | intersection ids =>
    cases ids with
    | nil => cases hhead
    | cons id rest =>
      obtain ⟨first, others, rfl⟩ := List.exists_cons_of_length_eq_add_one hlength
      cases h
      cases hhead
      refine ⟨?_, rfl, Kind.noConfusion, Kind.noConfusion⟩
      rw [← hconst (Nat.succ.inj hlength)]
      rfl
  | function ids id =>
    cases h
    cases hhead
    rw [children, List.length_append] at hlength
    -- the parameters come first, and what is left is the result or nothing
    have htake : (parts.take ids.length).length = ids.length := by
      rw [List.length_take, hlength]
      omega
    have hdrop : (parts.drop ids.length).length = id.toList.length := by
      rw [List.length_drop, hlength]
      omega
    have hreturns : (parts.drop ids.length).head?.toList = parts.drop ids.length ∧
        (parts.drop ids.length).head?.map (fun _ => Node.unknown) = id.map fun _ =>
          Node.unknown := by
      cases id with
      | none =>
        rw [List.length_eq_zero_iff.mp hdrop]
        exact ⟨rfl, rfl⟩
      | some id =>
        obtain ⟨result, hresult⟩ := List.length_eq_one_iff.mp hdrop
        rw [hresult]
        exact ⟨rfl, rfl⟩
    refine ⟨?_, ?_, Kind.noConfusion, Kind.noConfusion⟩
    · rw [Node.head, Node.mapChildren, hconst htake, hreturns.2]
    · rw [Node.children, hreturns.1, List.take_append_drop]

/-- A union is made of the parts themselves. -/
theorem union_of_assemble {members : List SchemaId}
    (h : (union members).assemble parts = .ok node) :
    ∃ first rest, parts = first :: rest ∧ node = .union first rest := by
  cases parts with
  | nil => cases h
  | cons first rest =>
    cases h
    exact ⟨first, rest, rfl, rfl⟩

theorem optional_of_assemble {inner : SchemaId} (h : (optional inner).assemble parts = .ok node)
    (hlength : parts.length = (optional inner).children.length) :
    ∃ part, parts = [part] ∧ node = part.optional := by
  obtain ⟨part, rfl⟩ := List.length_eq_one_iff.mp hlength
  cases h
  exact ⟨part, rfl, rfl⟩

/-- A schema that is put together is a union, is optional or has a head. -/
theorem cases_of_assemble (h : schema.assemble parts = .ok node)
    (hlength : parts.length = schema.children.length) :
    (∃ members, schema = .union members) ∨ (∃ inner, schema = .optional inner) ∨
      ∃ head, schema.head? = some head := by
  cases schema with
  | union members => exact .inl ⟨members, rfl⟩
  | optional inner => exact .inr (.inl ⟨inner, rfl⟩)
  | «lazy» slot => cases h
  | tuple ids | intersection ids =>
    cases ids with
    | nil =>
      obtain rfl := List.length_eq_zero_iff.mp hlength
      cases h
    | cons id rest => exact .inr (.inr ⟨_, rfl⟩)
  | _ => exact .inr (.inr ⟨_, rfl⟩)

/-- Nothing is referred to that was not referred to in a part. -/
theorem occurs_of_assemble (h : schema.assemble parts = .ok node)
    (hlength : parts.length = schema.children.length) {identifier : String}
    {displayName : Option String} (hoccurs : Node.Occurs (.reference identifier displayName) node) :
    ∃ part ∈ parts, Node.Occurs (.reference identifier displayName) part := by
  rcases cases_of_assemble h hlength with ⟨members, rfl⟩ | ⟨inner, rfl⟩ | ⟨head, hhead⟩
  · obtain ⟨first, rest, rfl, rfl⟩ := union_of_assemble h
    exact (Node.occurs_iff_of_kind Kind.noConfusion).mp hoccurs
  · obtain ⟨part, rfl, rfl⟩ := optional_of_assemble h hlength
    refine ⟨part, List.mem_cons_self, ?_⟩
    rw [Node.optional] at hoccurs
    split at hoccurs
    · exact hoccurs
    · -- what stands beside the part is no reference
      obtain ⟨child, hc, hchild⟩ := (Node.occurs_iff_of_kind Kind.noConfusion).mp hoccurs
      rcases List.mem_cons.mp hc with rfl | hc
      · exact hchild
      · obtain rfl := List.mem_singleton.mp hc
        exact absurd ((Node.occurs_iff_of_kind Kind.noConfusion).mp hchild)
          (by simp [Node.children])
  · obtain ⟨-, hchildren, -, hkind⟩ := head_of_assemble h hlength hhead
    rw [← hchildren]
    exact (Node.occurs_iff_of_kind hkind).mp hoccurs

end

end Schema

namespace SchemaGraph

/-- A schema that is no lazy is read by its children. -/
theorem importWithin_eq {graph : SchemaGraph} {id : SchemaId}
    (h : ∀ slot, graph.get id ≠ .lazy slot) (depth : Nat) :
    graph.importWithin (depth + 1) id = (do
      let parts ← (graph.get id).children.mapM (graph.importWithin depth)
      orHalt ((graph.get id).assemble parts)) := by
  rw [importWithin]
  -- only properties and return values are read together with something else
  generalize graph.get id = schema at h
  cases schema with
  | «lazy» slot => exact absurd rfl (h slot)
  | object properties =>
    have hproperties := mapM_zipWith (graph.importWithin depth) Prod.snd
      (fun property node => (property.1, node)) properties.entries
    simp only [hproperties, bind_assoc, pure_bind, Schema.children, Schema.assemble, orHalt,
      OrderedMap.values, OrderedMap.keys, List.zip, List.zipWith_map_left]
  | function parameters returns =>
    have hreturns : returns.mapM (graph.importWithin depth) =
        (do return (← returns.toList.mapM (graph.importWithin depth)).head?) := by
      cases returns <;> simp
    have hsplit := mapM_splitAt (graph.importWithin depth) parameters returns.toList
      fun before after => (pure (.function before after.head?) : Import Node)
    simp only [hreturns, bind_assoc, pure_bind, Schema.children, Schema.assemble, orHalt, hsplit]
  | _ => simp [Schema.children, Schema.assemble, orHalt]

end SchemaGraph

end TypeGraph
