import TypeGraph.JsonSchema.Document
import TypeGraph.Proofs.JsonSchema.Belongs
import TypeGraph.Proofs.JsonSchema.Rendering
import TypeGraph.Proofs.JsonSchema.Validates
import TypeGraph.Proofs.Lists

/-!
# What is written for a node

`JsonSchema.Writes` says what is written for one level of a normal node, over what is written for
its parts. Rendering a schema of a graph is behind it from here on: `SchemaGraph.Written.writes`
turns what was rendered for a schema that stands for a node into what is written for the node.

Main results:

* `SchemaGraph.admitsAllNames_iff`: a key is found to admit every name exactly if it does so.
* `SchemaGraph.Written.writes`: what a rendering says, level by level.
-/

namespace TypeGraph

/-! ## One level -/

namespace JsonSchema

/-- What is written in a place that can be left empty is written for what fills the place. -/
inductive Fills (part : JsonSchema → Node → Prop) : JsonSchema → Node → Prop
  | required {schema : JsonSchema} {node : Node} (written : part schema node) :
    Fills part schema node
  | optional {schema : JsonSchema} {content : Node} (written : part schema content) :
      Fills part schema (.union content [.undefined])

/-- One level of a normal node is written, given what is written for its parts. What stands behind a
reference is written in the document. -/
inductive Writes (definitions : DefinitionMap) (document : Json) (nameOf : LazyId → String)
    (part : JsonSchema → Node → Prop) : JsonSchema → Node → Prop
  | primitive {kind : Primitive} {schema : JsonSchema}
      (rendered : SchemaGraph.renderPrimitive kind = .ok schema) :
      Writes definitions document nameOf part schema (.primitive kind)
  | literal {value : Literal} {schema : JsonSchema}
      (rendered : SchemaGraph.renderLiteral value = .ok schema) :
      Writes definitions document nameOf part schema (.literal value)
  | array {items : JsonSchema} {element : Node} (written : part items element) :
      Writes definitions document nameOf part (array items false) (.array element)
  | set {items : JsonSchema} {element : Node} (written : part items element) :
      Writes definitions document nameOf part (array items true) (.set element)
  | record {names values : JsonSchema} {key content : Node}
      (restricted : ¬ definitions.AdmitsAllNames key) (keys : part names key)
      (contents : part values content) :
      Writes definitions document nameOf part (record (some names) values) (.record key content)
  | recordOfAnyName {values : JsonSchema} {key content : Node}
      (unrestricted : definitions.AdmitsAllNames key) (contents : part values content) :
      Writes definitions document nameOf part (record none values) (.record key content)
  | object {properties : List (String × JsonSchema)} {shape : List (String × Node)}
      (distinct : (shape.map Prod.fst).Nodup)
      (slots : List.Forall₂ (fun property property' => property.1 = property'.1 ∧
        Fills part property.2 property'.2) properties shape) :
      Writes definitions document nameOf part
        (object properties ((shape.filter fun property => !property.2.isOptional).map Prod.fst))
        (.object shape)
  | union {schemas : List JsonSchema} {first second : Node} {rest : List Node}
      (members : List.Forall₂ part schemas (first :: second :: rest)) :
      Writes definitions document nameOf part (anyOf schemas) (.union first (second :: rest))
  | intersection {schemas : List JsonSchema} {first : Node} {rest : List Node}
      (members : List.Forall₂ part schemas (first :: rest)) :
      Writes definitions document nameOf part (allOf schemas) (.intersection first rest)
  | tuple {items : List JsonSchema} {first : Node} {rest : List Node}
      (slots : List.Forall₂ (Fills part) items (first :: rest)) :
      Writes definitions document nameOf part
        (tuple items (SchemaGraph.leastLength ((first :: rest).map fun node => !node.isOptional)))
        (.tuple first rest)
  | reference {slot : LazyId} {identifier : String} {displayName : Option String} {body : Node}
      {target : JsonSchema} (found : definitions.node? identifier = some body)
      (written : part target body)
      (entry : document.definition? (pointer (nameOf slot)) =
        some (.object (target.toJson nameOf))) :
      Writes definitions document nameOf part (ref slot) (.reference identifier displayName)

end JsonSchema

namespace SchemaGraph

open JsonSchema

variable {graph : SchemaGraph} {definitions : DefinitionMap}

/-! ## Keys -/

theorem admitsAllNames_of_level {schema : Schema} {node : Node} {ids : List SchemaId}
    {parts : List Node} (h : schema.Level node ids parts) :
    admitsAllNames schema = true ↔ definitions.AdmitsAllNames node := by
  constructor
  · intro hadmits
    cases h with
    | primitive kind =>
      cases kind with
      | string => exact .string
      | number => exact .number
      | _ => cases hadmits
    | _ => cases hadmits
  · intro hadmits
    cases hadmits <;> cases h <;> rfl

theorem follow_of_level {steps : Nat} {id : SchemaId} {node : Node} {ids : List SchemaId}
    {parts : List Node} (hlevel : (graph.get id).Level node ids parts) {schema : Schema}
    (h : graph.follow steps id = .ok schema) : schema = graph.get id := by
  unfold follow at h
  split at h
  · rename_i hget
    rw [hget] at hlevel
    cases hlevel
  · rename_i hget
    rw [hget] at hlevel
    cases hlevel
  · cases h
    rfl

/-- The schema behind the lazies of a key tells whether the key admits every name. -/
theorem admitsAllNames_iff (hdescribes : graph.Describes definitions) {steps : Nat} {id : SchemaId}
    {key : Node} (hrepresents : graph.Represents [id] [key]) {schema : Schema}
    (h : graph.follow steps id = .ok schema) :
    admitsAllNames schema = true ↔ definitions.AdmitsAllNames key := by
  -- induction on the lazies that are followed; a reference admits what its body admits
  induction steps generalizing id key with
  | zero =>
    cases hrepresents with
    | level _ _ hlevel => exact follow_of_level hlevel h ▸ admitsAllNames_of_level hlevel
    | reference displayName _ hget =>
      unfold follow at h
      rw [hget] at h
      cases h
  | succ steps ih =>
    cases hrepresents with
    | level _ _ hlevel => exact follow_of_level hlevel h ▸ admitsAllNames_of_level hlevel
    | reference displayName _ hget hname =>
      obtain ⟨target, body, htarget, hbody, hrepresents⟩ := hdescribes.bodies hname
      unfold follow at h
      rw [hget] at h
      dsimp only at h
      rw [lazyTarget_eq htarget] at h
      refine (ih hrepresents h).trans ⟨.reference hbody, ?_⟩
      rintro (_ | _ | _ | ⟨hfound, htarget⟩)
      exact Option.some.inj (hbody.symm.trans hfound) ▸ htarget

/-! ## Renderings -/

/-- What a schema that stands for the node is rendered as, where all lazies in it are listed. -/
def Written (graph : SchemaGraph) (listed : LazyId → Prop) (schema : JsonSchema) (node : Node) :
    Prop :=
  ∃ id depth, graph.Represents [id] [node] ∧ graph.renderWithin depth id = .ok schema ∧
    ∀ slot ∈ schema.references, listed slot

variable {listed : LazyId → Prop} {depth : Nat}

theorem forall₂_written {ids : List SchemaId} {nodes : List Node} {schemas : List JsonSchema}
    (hrepresents : graph.Represents ids nodes)
    (h : ids.mapM (graph.renderWithin depth) = .ok schemas)
    (hlisted : ∀ slot ∈ referencesInAll schemas, listed slot) :
    List.Forall₂ (graph.Written listed) schemas nodes := by
  have hrendered := forall₂_of_mapM h
  clear h
  induction hrendered generalizing nodes with
  | nil =>
    cases hrepresents
    exact .nil
  | @cons id schema _ _ hfirst _ ih =>
    cases nodes with
    | nil => cases hrepresents
    | cons node nodes =>
      have hlisted' := List.forall_mem_append.mp hlisted
      exact .cons ⟨id, depth, hrepresents.first, hfirst, hlisted'.1⟩
        (ih hrepresents.others hlisted'.2)

/-- What is rendered for the content of a place is written for the node of the place, which must be
filled exactly if its node is not optional. -/
theorem fills_of_slotContent {id : SchemaId} {node : Node}
    (hrepresents : graph.Represents [id] [node]) {schema : JsonSchema}
    (h : graph.renderWithin depth (graph.slotContent id).1 = .ok schema)
    (hlisted : ∀ slot ∈ schema.references, listed slot) :
    Fills (graph.Written listed) schema node ∧ (graph.slotContent id).2 = !node.isOptional := by
  have hrendered :
      graph.slotContent id = (id, true) → graph.renderWithin depth id = .ok schema := by
    intro heq
    rwa [heq] at h
  have hrequired (heq : graph.slotContent id = (id, true)) (hoptional : node.isOptional = false) :
      Fills (graph.Written listed) schema node ∧ (graph.slotContent id).2 = !node.isOptional := by
    rw [heq, hoptional]
    exact ⟨.required ⟨id, depth, hrepresents, hrendered heq, hlisted⟩, rfl⟩
  cases hrepresents with
  | reference displayName _ hget => exact hrequired (by rw [slotContent, hget]) rfl
  | level hbound hbelow hlevel hinner =>
    generalize hget : graph.get id = level at hlevel
    cases hlevel with
    | optional inner content =>
      rw [slotContent, hget] at h ⊢
      refine ⟨.optional ⟨inner, depth, hinner, h, hlisted⟩, ?_⟩
      rw [Node.isOptional_union]
      simp [Node.isOptional]
    | primitive kind =>
      refine hrequired (by rw [slotContent, hget]) ?_
      cases kind with
      | undefined =>
        -- `undefined` is not rendered
        have hfails := hrendered (by rw [slotContent, hget])
        cases depth with
        | zero => cases hfails
        | succ depth =>
          rw [renderWithin, hget] at hfails
          cases hfails
      | _ => rfl
    | union _ _ _ _ hnone => exact hrequired (by rw [slotContent, hget]) hnone
    | _ => exact hrequired (by rw [slotContent, hget]) rfl

theorem forall₂_fills {ids : List SchemaId} {nodes : List Node}
    (hrepresents : graph.Represents ids nodes) {items : List JsonSchema}
    (h : (ids.map graph.slotContent).mapM (fun slot => graph.renderWithin depth slot.1) = .ok items)
    (hlisted : ∀ slot ∈ referencesInAll items, listed slot) :
    List.Forall₂ (Fills (graph.Written listed)) items nodes ∧
      (ids.map graph.slotContent).map Prod.snd = nodes.map fun node => !node.isOptional := by
  -- induction on the places, which are rendered one after the other
  induction ids generalizing nodes items with
  | nil =>
    cases hrepresents
    cases h
    exact ⟨.nil, rfl⟩
  | cons id rest ih =>
    cases nodes with
    | nil => cases hrepresents
    | cons node nodes =>
      rw [List.map_cons, List.mapM_cons] at h
      obtain ⟨first, hfirst, h⟩ := exists_of_bind_eq_ok h
      obtain ⟨others, hothers, h⟩ := exists_of_bind_eq_ok h
      cases h
      have hlisted' := List.forall_mem_append.mp hlisted
      obtain ⟨hfills, hflag⟩ := fills_of_slotContent hrepresents.first hfirst hlisted'.1
      obtain ⟨hrest, hflags⟩ := ih hrepresents.others hothers hlisted'.2
      rw [List.map_cons, List.map_cons, List.map_cons, hflag, hflags]
      exact ⟨.cons hfills hrest, rfl⟩

theorem forall₂_properties {entries : List (String × SchemaId)} {shape : List (String × Node)}
    (hnames : entries.map Prod.fst = shape.map Prod.fst)
    (hrepresents : graph.Represents (entries.map Prod.snd) (shape.map Prod.snd))
    {properties : List (String × JsonSchema)}
    (h : (entries.map fun entry => (entry.1, graph.slotContent entry.2)).mapM
      (fun slot => return (slot.1, ← graph.renderWithin depth slot.2.1)) = .ok properties)
    (hlisted : ∀ slot ∈ referencesInProperties properties, listed slot) :
    List.Forall₂ (fun property property' => property.1 = property'.1 ∧
        Fills (graph.Written listed) property.2 property'.2) properties shape ∧
      ((entries.map fun entry => (entry.1, graph.slotContent entry.2)).filterMap fun slot =>
        if slot.2.2 then some slot.1 else none) =
          (shape.filter fun property => !property.2.isOptional).map Prod.fst := by
  -- induction on the properties, whose names and nodes are listed side by side
  induction entries generalizing shape properties with
  | nil =>
    cases shape with
    | nil =>
      cases h
      exact ⟨.nil, rfl⟩
    | cons => cases hnames
  | cons entry rest ih =>
    cases shape with
    | nil => cases hnames
    | cons property shape =>
      obtain ⟨hname, hnames⟩ := List.cons.inj hnames
      rw [List.map_cons, List.mapM_cons] at h
      obtain ⟨first, hfirst, h⟩ := exists_of_bind_eq_ok h
      obtain ⟨others, hothers, h⟩ := exists_of_bind_eq_ok h
      obtain ⟨schema, hschema, hfirst⟩ := exists_of_bind_eq_ok hfirst
      cases h
      cases hfirst
      have hlisted' := List.forall_mem_append.mp hlisted
      obtain ⟨hfills, hflag⟩ := fills_of_slotContent hrepresents.first hschema hlisted'.1
      obtain ⟨hrest, hrequired⟩ := ih hnames hrepresents.others hothers hlisted'.2
      refine ⟨.cons ⟨hname, hfills⟩ hrest, ?_⟩
      -- the name is required if what fills the property is not optional
      rw [List.map_cons, List.filterMap_cons, List.filter_cons, hrequired]
      dsimp only
      rw [hflag]
      cases property.2.isOptional with
      | false => exact congrArg (· :: _) hname
      | true => rfl

/-! ## Levels -/

/-- What is rendered is what is written: one level at a time, if the document has an entry for every
listed lazy. -/
theorem Written.writes (hdescribes : graph.Describes definitions) {document : Json}
    (hentries : ∀ slot, listed slot → ∀ target body, graph.target? slot = some target →
      graph.Represents [target] [body] → ∃ schema, graph.Written listed schema body ∧
        document.definition? (pointer (graph.lazyName slot)) =
          some (.object (schema.toJson graph.lazyName)))
    {schema : JsonSchema} {node : Node} (h : graph.Written listed schema node) :
    Writes definitions document graph.lazyName (graph.Written listed) schema node := by
  obtain ⟨id, depth, hrepresents, hrender, hlisted⟩ := h
  cases depth with
  | zero => cases hrender
  | succ depth =>
  rw [renderWithin] at hrender
  cases hrepresents with
  | reference displayName _ hget hname =>
    rw [hget] at hrender
    cases hrender
    obtain ⟨target, body, htarget, hbody, hrepresents⟩ := hdescribes.bodies hname
    obtain ⟨schema, hwritten, hentry⟩ :=
      hentries _ (hlisted _ List.mem_cons_self) target body htarget hrepresents
    exact .reference hbody hwritten hentry
  | level _ _ hlevel hinner =>
    generalize graph.get id = level at hlevel hrender
    cases hlevel with
    | primitive kind => exact .primitive hrender
    | literal value => exact .literal hrender
    | array element =>
      obtain ⟨items, hitems, hrender⟩ := exists_of_bind_eq_ok hrender
      cases hrender
      exact .array ⟨_, depth, hinner, hitems, hlisted⟩
    | set element =>
      obtain ⟨items, hitems, hrender⟩ := exists_of_bind_eq_ok hrender
      cases hrender
      exact .set ⟨_, depth, hinner, hitems, hlisted⟩
    | record keyId valueId key value =>
      obtain ⟨resolved, hresolved, hrender⟩ := exists_of_bind_eq_ok hrender
      have hadmits := admitsAllNames_iff hdescribes hinner.first (eq_ok_of_orHalt hresolved)
      dsimp only at hrender
      -- names are only checked if the key does not admit them all
      split at hrender
      · rename_i hall
        obtain ⟨names, hnames, hrender⟩ := exists_of_bind_eq_ok hrender
        obtain ⟨values, hvalues, hrender⟩ := exists_of_bind_eq_ok hrender
        cases hnames
        cases hrender
        exact .recordOfAnyName (hadmits.mp hall) ⟨_, depth, hinner.others, hvalues, hlisted⟩
      · rename_i hsome
        obtain ⟨names, hnames, hrender⟩ := exists_of_bind_eq_ok hrender
        obtain ⟨values, hvalues, hrender⟩ := exists_of_bind_eq_ok hrender
        obtain ⟨keys, hkeys, hnames⟩ := exists_of_bind_eq_ok hnames
        cases hnames
        cases hrender
        have hlisted' := List.forall_mem_append.mp hlisted
        exact .record (mt hadmits.mpr hsome) ⟨_, depth, hinner.first, hkeys, hlisted'.1⟩
          ⟨_, depth, hinner.others, hvalues, hlisted'.2⟩
    | map | function => cases hrender
    | object properties shape hnames =>
      obtain ⟨rendered, hrendered, hrender⟩ := exists_of_bind_eq_ok hrender
      cases hrender
      obtain ⟨hslots, hrequired⟩ := forall₂_properties hnames hinner hrendered hlisted
      -- the properties of a schema are a map, so no name comes twice
      have hdistinct : (shape.map Prod.fst).Nodup := hnames ▸ properties.nodup
      exact hrequired ▸ .object hdistinct hslots
    | optional => cases hrender
    | union ids first second rest =>
      obtain ⟨members, hmembers, hrender⟩ := exists_of_bind_eq_ok hrender
      cases hrender
      exact .union (forall₂_written hinner hmembers hlisted)
    | intersection ids first rest =>
      obtain ⟨members, hmembers, hrender⟩ := exists_of_bind_eq_ok hrender
      cases hrender
      exact .intersection (forall₂_written hinner hmembers hlisted)
    | tuple ids first rest =>
      obtain ⟨items, hitems, hrender⟩ := exists_of_bind_eq_ok hrender
      cases hrender
      obtain ⟨hslots, hflags⟩ := forall₂_fills hinner hitems hlisted
      exact hflags ▸ .tuple hslots

end SchemaGraph

end TypeGraph
