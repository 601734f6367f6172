import TypeGraph.Proofs.Entries
import TypeGraph.Proofs.SchemaGraph.Represents
import TypeGraph.SchemaGraph.OfNode

/-!
# What is built

A build makes schemas that stand for the normal forms of the nodes that it is given. The invariant
that carries this is `SchemaDraft.Wired`: each definition has one lazy, known by its handle, and
each lazy is filled with the body of its definition, except those whose bodies are still being
built.

Main results:

* `SchemaDraft.represents_buildWithin`: a build that succeeds has made a schema that stands for the
  node.
* `SchemaGraph.represents_ofNode`: the graph of a node describes all definitions that it names.
-/

namespace TypeGraph

/-- The definitions with normal bodies. -/
def DefinitionMap.normalize (definitions : DefinitionMap) : DefinitionMap :=
  definitions.mapValues fun definition => { definition with node := definition.node.normalize }

theorem DefinitionMap.node?_normalize (definitions : DefinitionMap) (identifier : String) :
    definitions.normalize.node? identifier = (definitions.node? identifier).map Node.normalize := by
  unfold node? normalize
  rw [OrderedMap.get?_mapValues, Option.map_map, Option.map_map]
  rfl

namespace SchemaDraft

open SchemaGraph

variable {definitions : DefinitionMap} {opened : List LazyId} {draft draft' : SchemaDraft}

/-! ## The invariant -/

/-- Each lazy has a handle and, unless it is opened, a target that stands for its definition. -/
structure Wired (definitions : DefinitionMap) (opened : List LazyId)
    (draft : SchemaDraft) : Prop where
  handles : ∀ {identifier : String} {handle : SchemaId},
    draft.handles.get? identifier = some handle → handle < draft.graph.size ∧
      ∃ slot, draft.graph.get handle = .lazy slot ∧ draft.graph.name? slot = some identifier
  lazies : ∀ {slot : LazyId} {name : String}, draft.graph.name? slot = some name →
    ∃ handle, draft.handles.get? name = some handle ∧ draft.graph.get handle = .lazy slot
  bodies : ∀ {slot : LazyId} {name : String}, draft.graph.name? slot = some name → slot ∉ opened →
    ∃ target body, draft.graph.target? slot = some target ∧
      definitions.normalize.node? name = some body ∧ Represents draft.graph [target] [body]

theorem Wired.empty : Wired definitions [] {} where
  handles h := by cases h
  lazies h := by cases h
  bodies h := by cases h

/-- A draft that is wired has led to another one. -/
structure Leads (definitions : DefinitionMap) (opened : List LazyId) (draft draft' : SchemaDraft) :
    Prop where
  wired : Wired definitions opened draft'
  grows : draft.graph.Grows draft'.graph

theorem Leads.trans {d₁ d₂ d₃ : SchemaDraft} (h : Leads definitions opened d₁ d₂)
    (h' : Leads definitions opened d₂ d₃) : Leads definitions opened d₁ d₃ :=
  ⟨h'.wired, h.grows.trans h'.grows⟩

/-- One more schema changes nothing that is wired. -/
theorem Wired.add (h : Wired definitions opened draft) (schema : Schema) :
    Wired definitions opened { draft with graph := (draft.graph.add schema).2 } := by
  have hgrows := draft.graph.grows_add schema
  refine ⟨?_, ?_, ?_⟩
  · intro identifier handle hh
    obtain ⟨hbound, slot, hget, hname⟩ := h.handles hh
    exact ⟨Nat.lt_of_lt_of_le hbound hgrows.size, slot, (hgrows.get hbound).trans hget, hname⟩
  · intro slot name hname
    obtain ⟨handle, hh, hget⟩ := h.lazies hname
    exact ⟨handle, hh, (hgrows.get (h.handles hh).1).trans hget⟩
  · intro slot name hname hopened
    obtain ⟨target, body, htarget, hbody, hrepresents⟩ := h.bodies hname hopened
    exact ⟨target, body, htarget, hbody, hrepresents.mono hgrows⟩

/-- The draft with a lazy for a definition, and a handle for it. -/
def enter (draft : SchemaDraft) (identifier : String) : SchemaDraft :=
  { graph := ((draft.graph.addLazy identifier).2.add (.lazy draft.graph.lazies.size)).2
    handles := draft.handles.insert identifier draft.graph.size }

theorem grows_enter (draft : SchemaDraft) (identifier : String) :
    draft.graph.Grows (draft.enter identifier).graph :=
  (draft.graph.grows_addLazy identifier).trans (SchemaGraph.grows_add _ _)

theorem name?_enter (draft : SchemaDraft) (identifier : String) (slot : LazyId) :
    (draft.enter identifier).graph.name? slot =
      if slot = draft.graph.lazies.size then some identifier else draft.graph.name? slot :=
  draft.graph.name?_addLazy identifier slot

theorem get_enter (draft : SchemaDraft) (identifier : String) :
    (draft.enter identifier).graph.get draft.graph.size = .lazy draft.graph.lazies.size :=
  (SchemaGraph.get_add ..).trans (if_pos rfl)

theorem get_enter_eq (draft : SchemaDraft) (identifier : String) (id : SchemaId) :
    (draft.enter identifier).graph.get id =
      if id = draft.graph.size then .lazy draft.graph.lazies.size else draft.graph.get id :=
  SchemaGraph.get_add ..

theorem size_enter (draft : SchemaDraft) (identifier : String) :
    (draft.enter identifier).graph.size = draft.graph.size + 1 := SchemaGraph.size_add ..

theorem lazies_size_enter (draft : SchemaDraft) (identifier : String) :
    (draft.enter identifier).graph.lazies.size = draft.graph.lazies.size + 1 := Array.size_push ..

theorem target?_enter (draft : SchemaDraft) (identifier : String) (slot : LazyId) :
    (draft.enter identifier).graph.target? slot = draft.graph.target? slot :=
  draft.graph.target?_addLazy identifier slot

theorem handle?_enter (draft : SchemaDraft) (identifier other : String) :
    (draft.enter identifier).handles.get? other =
      if other = identifier then some draft.graph.size else draft.handles.get? other :=
  OrderedMap.get?_insert ..

theorem keys_enter {draft : SchemaDraft} {identifier : String}
    (hnew : draft.handles.get? identifier = none) :
    (draft.enter identifier).handles.keys = draft.handles.keys ++ [identifier] :=
  (OrderedMap.keys_insert ..).trans (if_neg (OrderedMap.get?_eq_none_iff.mp hnew))

/-- A definition that is entered is opened. -/
theorem Wired.enter (h : Wired definitions opened draft) {identifier : String}
    (hnew : draft.handles.get? identifier = none) :
    Wired definitions (draft.graph.lazies.size :: opened) (draft.enter identifier) := by
  have hgrows := draft.grows_enter identifier
  refine ⟨?_, ?_, ?_⟩
  · intro other handle hh
    rw [SchemaDraft.enter, OrderedMap.get?_insert] at hh
    split at hh
    · rename_i heq
      cases hh
      refine ⟨?_, draft.graph.lazies.size, draft.get_enter identifier, ?_⟩
      · exact Nat.lt_of_lt_of_eq (Nat.lt_succ_self _) (SchemaGraph.size_add ..).symm
      · rw [name?_enter, if_pos rfl, heq]
    · obtain ⟨hbound, slot, hget, hname⟩ := h.handles hh
      exact ⟨Nat.lt_of_lt_of_le hbound hgrows.size, slot, (hgrows.get hbound).trans hget,
        hgrows.name hname⟩
  · intro slot name hname
    rw [name?_enter] at hname
    simp only [SchemaDraft.enter, OrderedMap.get?_insert]
    split at hname
    · rename_i heq
      cases hname
      exact ⟨_, if_pos rfl, heq.symm ▸ draft.get_enter identifier⟩
    · obtain ⟨handle, hh, hget⟩ := h.lazies hname
      refine ⟨handle, ?_, (hgrows.get (h.handles hh).1).trans hget⟩
      rw [if_neg, hh]
      -- the definition had no handle, so it is another one
      rintro rfl
      rw [hnew] at hh
      cases hh
  · intro slot name hname hopened
    rw [List.mem_cons, not_or] at hopened
    rw [name?_enter, if_neg hopened.1] at hname
    obtain ⟨target, body, htarget, hbody, hrepresents⟩ := h.bodies hname hopened.2
    exact ⟨target, body, (draft.graph.target?_addLazy identifier slot).trans htarget, hbody,
      hrepresents.mono hgrows⟩

/-- An opened definition is closed by filling its lazy with its body. -/
theorem Wired.fill {slot : LazyId} (h : Wired definitions (slot :: opened) draft)
    {identifier : String} (hname : draft.graph.name? slot = some identifier) {body : Node}
    (hbody : definitions.normalize.node? identifier = some body) {target : SchemaId}
    (hrepresents : Represents draft.graph [target] [body]) :
    Wired definitions opened { draft with graph := draft.graph.fill slot target } := by
  have hgrows := draft.graph.grows_fill slot target
  have hnames (other : LazyId) :
      (draft.graph.fill slot target).name? other = draft.graph.name? other :=
    draft.graph.name?_fill slot target other
  refine ⟨?_, ?_, ?_⟩
  · intro other handle hh
    obtain ⟨hbound, slot', hget, hname'⟩ := h.handles hh
    exact ⟨hbound, slot', hget, hgrows.name hname'⟩
  · intro slot' name hname'
    exact h.lazies ((hnames slot').symm.trans hname')
  · -- the lazy that is filled leads to its body, and the others to where they led before
    intro slot' name hfilled hopened
    have hname' := (hnames slot').symm.trans hfilled
    simp only [target?_fill draft.graph hname]
    split
    · rename_i heq
      subst heq
      cases hname.symm.trans hname'
      exact ⟨target, body, rfl, hbody, hrepresents.mono hgrows⟩
    · rename_i hne
      obtain ⟨target', body', htarget, hbody', hrepresents'⟩ :=
        h.bodies hname' (List.not_mem_cons_of_ne_of_not_mem hne hopened)
      exact ⟨target', body', htarget, hbody', hrepresents'.mono hgrows⟩

/-! ## Building -/

theorem run_get_bind {α : Type} (f : SchemaDraft → Build α) (draft : SchemaDraft) :
    (get >>= f : Build α).run.run draft = (f draft).run.run draft := rfl

theorem run_bind_eq_ok {α β : Type} {build : Build α} {f : α → Build β} {value : β}
    (h : (build >>= f).run.run draft = (.ok value, draft')) :
    ∃ first draft₁, build.run.run draft = (.ok first, draft₁) ∧
      (f first).run.run draft₁ = (.ok value, draft') := by
  rw [ExceptT.run_bind, StateT.run_bind] at h
  rcases hfirst : build.run.run draft with ⟨⟨error⟩ | ⟨first⟩, draft₁⟩
  · rw [hfirst] at h
    cases h
  · rw [hfirst] at h
    exact ⟨first, draft₁, rfl, h⟩

/-- A level that is added stands for the node, if the schemas that it is made of stand for the
parts. -/
theorem represents_add (hwired : Wired definitions opened draft) {schema : Schema} {id : SchemaId}
    (h : (add schema).run.run draft = (.ok id, draft')) {node : Node} {ids : List SchemaId}
    {parts : List Node} (hlevel : schema.Level node ids parts)
    (hinner : Represents draft.graph ids parts) :
    Leads definitions opened draft draft' ∧ Represents draft'.graph [id] [node] := by
  cases h
  have hgrows := draft.graph.grows_add schema
  refine ⟨⟨hwired.add schema, hgrows⟩, ?_⟩
  refine .level ?_ hinner.bound ?_ (hinner.mono hgrows) .nil
  · exact Nat.lt_of_lt_of_eq (Nat.lt_succ_self _) (SchemaGraph.size_add ..).symm
  · have hget := (draft.graph.get_add schema draft.graph.size).trans (if_pos rfl)
    exact hget.symm ▸ hlevel

/-- The build makes a schema that stands for the normal form of the node. -/
def Realizes (definitions : DefinitionMap) (depth : Nat) (node : Node) : Prop :=
  ∀ {opened : List LazyId} {draft draft' : SchemaDraft} {id : SchemaId},
    Wired definitions opened draft →
    (buildWithin definitions depth node).run.run draft = (.ok id, draft') →
    Leads definitions opened draft draft' ∧ Represents draft'.graph [id] [node.normalize]

variable {depth : Nat}

theorem represents_buildAll {nodes : List Node}
    (hnodes : ∀ node ∈ nodes, Realizes definitions depth node)
    (hwired : Wired definitions opened draft) {ids : List SchemaId}
    (h : (buildAll definitions depth nodes).run.run draft = (.ok ids, draft')) :
    Leads definitions opened draft draft' ∧
    Represents draft'.graph ids (nodes.map Node.normalize) := by
  induction nodes generalizing draft ids with
  | nil =>
    rw [buildAll] at h
    cases h
    exact ⟨⟨hwired, .refl _⟩, .nil⟩
  | cons node rest ih =>
    rw [buildAll] at h
    obtain ⟨id, d₁, hid, h⟩ := run_bind_eq_ok h
    obtain ⟨others, d₂, hothers, h⟩ := run_bind_eq_ok h
    cases h
    obtain ⟨hleads, hfirst⟩ := hnodes node List.mem_cons_self hwired hid
    obtain ⟨hleads', hrest⟩ :=
      ih (fun other ho => hnodes other (List.mem_cons_of_mem _ ho)) hleads.wired hothers
    exact ⟨hleads.trans hleads', (hfirst.mono hleads'.grows).cons hrest⟩

theorem represents_buildShape {shape : List (String × Node)}
    (hnodes : ∀ node ∈ shape.map Prod.snd, Realizes definitions depth node)
    (hwired : Wired definitions opened draft) {properties : List (String × SchemaId)}
    (h : (buildShape definitions depth shape).run.run draft = (.ok properties, draft')) :
    Leads definitions opened draft draft' ∧
      List.Forall₂ (fun property property' => property.1 = property'.1 ∧
          Represents draft'.graph [property.2] [property'.2])
        properties (shape.map fun property => (property.1, property.2.normalize)) := by
  -- induction on the properties; what is built first is still there after the rest
  induction shape generalizing draft properties with
  | nil =>
    rw [buildShape] at h
    cases h
    exact ⟨⟨hwired, .refl _⟩, .nil⟩
  | cons property rest ih =>
    rw [buildShape] at h
    obtain ⟨id, d₁, hid, h⟩ := run_bind_eq_ok h
    obtain ⟨others, d₂, hothers, h⟩ := run_bind_eq_ok h
    cases h
    obtain ⟨hleads, hfirst⟩ := hnodes property.2 List.mem_cons_self hwired hid
    obtain ⟨hleads', hrest⟩ :=
      ih (fun other ho => hnodes other (List.mem_cons_of_mem _ ho)) hleads.wired hothers
    exact ⟨hleads.trans hleads', .cons ⟨rfl, hfirst.mono hleads'.grows⟩ hrest⟩

theorem represents_buildOption {node : Option Node}
    (hnodes : ∀ inner ∈ node.toList, Realizes definitions depth inner)
    (hwired : Wired definitions opened draft) {id : Option SchemaId}
    (h : (buildOption definitions depth node).run.run draft = (.ok id, draft')) :
    Leads definitions opened draft draft' ∧
      Represents draft'.graph id.toList (node.map Node.normalize).toList := by
  cases node with
  | none =>
    rw [buildOption] at h
    cases h
    exact ⟨⟨hwired, .refl _⟩, .nil⟩
  | some inner =>
    rw [buildOption] at h
    obtain ⟨id, d₁, hid, h⟩ := run_bind_eq_ok h
    cases h
    exact hnodes inner List.mem_cons_self hwired hid

/-- The schemas of properties stand for an object, in which a name that comes twice counts once. -/
theorem level_object {graph : SchemaGraph} {properties : List (String × SchemaId)}
    {shape : List (String × Node)}
    (h : List.Forall₂ (fun property property' => property.1 = property'.1 ∧
      Represents graph [property.2] [property'.2]) properties shape) :
    (Schema.object (.ofList properties)).Level (Node.objectOf shape)
        (OrderedMap.ofList properties).values ((Entries.ofList shape).map Prod.snd) ∧
      Represents graph (OrderedMap.ofList properties).values
        ((Entries.ofList shape).map Prod.snd) := by
  have hentries := Entries.forall₂_ofList (R := fun id node => Represents graph [id] [node]) h
  constructor
  · refine .object _ _ ?_
    exact List.forall₂_eq_eq_eq ▸ List.rel_map (fun _ _ hentry => hentry.1) hentries
  · exact Represents.iff_forall₂.mpr (List.rel_map (fun _ _ hentry => hentry.2) hentries)

/-! The levels that have one part, two parts, or members. -/

section

variable {node first second : Node} {rest : List Node} {id : SchemaId}

theorem represents_element (hfirst : Realizes definitions depth first)
    (hwired : Wired definitions opened draft) {schema : SchemaId → Schema}
    (h : (do add (schema (← buildWithin definitions depth first)) : Build SchemaId).run.run draft =
      (.ok id, draft'))
    (hlevel : ∀ id, (schema id).Level node [id] [first.normalize]) :
    Leads definitions opened draft draft' ∧ Represents draft'.graph [id] [node] := by
  obtain ⟨firstId, d₁, hid, h⟩ := run_bind_eq_ok h
  obtain ⟨hleads, hr⟩ := hfirst hwired hid
  obtain ⟨hleads', hnode⟩ := represents_add hleads.wired h (hlevel firstId) hr
  exact ⟨hleads.trans hleads', hnode⟩

theorem represents_entry (hfirst : Realizes definitions depth first)
    (hsecond : Realizes definitions depth second) (hwired : Wired definitions opened draft)
    {schema : SchemaId → SchemaId → Schema}
    (h : (do
        let firstId ← buildWithin definitions depth first
        add (schema firstId (← buildWithin definitions depth second)) :
          Build SchemaId).run.run draft = (.ok id, draft'))
    (hlevel : ∀ id id', (schema id id').Level node [id, id'] [first.normalize, second.normalize]) :
    Leads definitions opened draft draft' ∧ Represents draft'.graph [id] [node] := by
  obtain ⟨firstId, d₁, hfirstId, h⟩ := run_bind_eq_ok h
  obtain ⟨secondId, d₂, hsecondId, h⟩ := run_bind_eq_ok h
  obtain ⟨hleads₁, hr₁⟩ := hfirst hwired hfirstId
  obtain ⟨hleads₂, hr₂⟩ := hsecond hleads₁.wired hsecondId
  have hinner := (hr₁.mono hleads₂.grows).cons hr₂
  obtain ⟨hleads₃, hnode⟩ := represents_add hleads₂.wired h (hlevel firstId secondId) hinner
  exact ⟨(hleads₁.trans hleads₂).trans hleads₃, hnode⟩

theorem represents_members (hnodes : ∀ member ∈ first :: rest, Realizes definitions depth member)
    (hwired : Wired definitions opened draft) {schema : List SchemaId → Schema}
    (h : (do
        let firstId ← buildWithin definitions depth first
        add (schema (firstId :: (← buildAll definitions depth rest))) :
          Build SchemaId).run.run draft = (.ok id, draft'))
    (hlevel : ∀ ids, (schema ids).Level node ids ((first :: rest).map Node.normalize)) :
    Leads definitions opened draft draft' ∧ Represents draft'.graph [id] [node] := by
  obtain ⟨firstId, d₁, hfirstId, h⟩ := run_bind_eq_ok h
  obtain ⟨ids, d₂, hids, h⟩ := run_bind_eq_ok h
  obtain ⟨hleads₁, hr₁⟩ := hnodes first List.mem_cons_self hwired hfirstId
  obtain ⟨hleads₂, hr₂⟩ :=
    represents_buildAll (fun other ho => hnodes other (List.mem_cons_of_mem _ ho))
      hleads₁.wired hids
  have hinner := (hr₁.mono hleads₂.grows).cons hr₂
  obtain ⟨hleads₃, hnode⟩ := represents_add hleads₂.wired h (hlevel (firstId :: ids)) hinner
  exact ⟨(hleads₁.trans hleads₂).trans hleads₃, hnode⟩

end

/-- Where references are built as they should be, so are all nodes. -/
theorem realizes_of_references
    (hreference : ∀ identifier displayName,
      Realizes definitions depth (.reference identifier displayName))
    (node : Node) : Realizes definitions depth node := by
  intro opened draft draft' id hwired h
  have hsmaller : ∀ other, sizeOf other < sizeOf node → Realizes definitions depth other :=
    fun other _ => realizes_of_references hreference other
  have hchild : ∀ child ∈ node.children, Realizes definitions depth child :=
    fun child hc => hsmaller child (Node.sizeOf_lt_of_mem_children hc)
  -- the parts are built one after the other, and then the level is added
  cases node with
  | primitive p =>
    rw [buildWithin] at h
    rw [Node.normalize]
    exact represents_add hwired h (.primitive p) .nil
  | literal value =>
    rw [buildWithin] at h
    rw [Node.normalize]
    exact represents_add hwired h (.literal value) .nil
  | array element =>
    rw [buildWithin] at h
    rw [Node.normalize]
    exact represents_element (hchild element List.mem_cons_self) hwired h fun _ => .array _ _
  | set element =>
    rw [buildWithin] at h
    rw [Node.normalize]
    exact represents_element (hchild element List.mem_cons_self) hwired h fun _ => .set _ _
  | record key value =>
    rw [buildWithin] at h
    rw [Node.normalize]
    exact represents_entry (hchild key List.mem_cons_self) (hchild value (by simp [Node.children]))
      hwired h fun _ _ => .record _ _ _ _
  | map key value =>
    rw [buildWithin] at h
    rw [Node.normalize]
    exact represents_entry (hchild key List.mem_cons_self) (hchild value (by simp [Node.children]))
      hwired h fun _ _ => .map _ _ _ _
  | object shape =>
    rw [buildWithin] at h
    obtain ⟨properties, d₁, hproperties, h⟩ := run_bind_eq_ok h
    obtain ⟨hleads, hshape⟩ := represents_buildShape hchild hwired hproperties
    obtain ⟨hlevel, hinner⟩ := level_object hshape
    obtain ⟨hleads', hnode⟩ := represents_add hleads.wired h hlevel hinner
    rw [Node.normalize, Node.normalizeShape_eq]
    exact ⟨hleads.trans hleads', hnode⟩
  | union first rest =>
    cases rest with
    | nil =>
      rw [buildWithin] at h
      rw [Node.normalize]
      exact hchild first List.mem_cons_self hwired h
    | cons second rest =>
      rw [Node.normalize_union]
      rw [buildWithin] at h
      · rcases Node.presence_cases (.union first (second :: rest)) with
          ⟨hoptional, hpresence⟩ | ⟨hoptional, hcontent, hpresence⟩ |
          ⟨content, hsize, hoptional, hcontent, hpresence⟩
        · -- no member is `undefined`, and none becomes it
          rw [hpresence] at h
          rw [hoptional]
          have hrequired :
              (Node.union first.normalize ((second :: rest).map Node.normalize)).isOptional =
                false := by
            rw [Node.isOptional_union_map fun member _ => member.isOptional_normalize, hoptional]
          exact represents_members hchild hwired h fun ids => .union ids _ _ _ hrequired
        · -- all members are `undefined`
          rw [hpresence] at h
          rw [if_pos hoptional, hcontent]
          exact represents_add hwired h (.primitive _) .nil
        · -- what is left without `undefined` is built in place of the union
          rw [hpresence] at h
          rw [if_pos hoptional, hcontent]
          have hrequired : content.normalize.isOptional = false := by
            rw [Node.isOptional_normalize, Node.isOptional_of_withoutUndefined hcontent]
          exact represents_element (hsmaller content hsize) hwired h fun id =>
            .optional id _ hrequired
      · exact List.cons_ne_nil _ _
  | tuple first rest =>
    rw [buildWithin] at h
    rw [Node.normalize, Node.normalizeAll_eq]
    exact represents_members hchild hwired h fun ids => .tuple ids _ _
  | intersection first rest =>
    rw [buildWithin] at h
    rw [Node.normalize, Node.normalizeAll_eq]
    exact represents_members hchild hwired h fun ids => .intersection ids _ _
  | function parameters returns =>
    rw [buildWithin] at h
    obtain ⟨ids, d₁, hids, h⟩ := run_bind_eq_ok h
    obtain ⟨returned, d₂, hreturned, h⟩ := run_bind_eq_ok h
    obtain ⟨hleads₁, hr₁⟩ :=
      represents_buildAll (fun node hn => hchild node (List.mem_append_left _ hn)) hwired hids
    obtain ⟨hleads₂, hr₂⟩ :=
      represents_buildOption (fun node hn => hchild node (List.mem_append_right _ hn)) hleads₁.wired
        hreturned
    have hinner := (hr₁.mono hleads₂.grows).append hr₂
    obtain ⟨hleads₃, hnode⟩ :=
      represents_add hleads₂.wired h (.function _ _ _ _ hr₁.length_eq) hinner
    rw [Node.normalize, Node.normalizeAll_eq, Node.normalizeOption_eq]
    exact ⟨(hleads₁.trans hleads₂).trans hleads₃, hnode⟩
  | reference identifier displayName => exact hreference identifier displayName hwired h
  termination_by sizeOf node

/-- A reference is built into the handle of its definition. Without one yet, the definition is
entered, and opened while its body is built with one level less. -/
theorem realizes_reference_of_bodies
    (hbodies : ∀ less, depth = less + 1 → ∀ body, Realizes definitions less body)
    (identifier : String) (displayName : Option String) :
    Realizes definitions depth (.reference identifier displayName) := by
  intro opened draft draft' id hwired h
  rw [buildWithin, run_get_bind] at h
  rw [Node.normalize]
  cases hhandle : draft.handles.get? identifier with
  | some handle =>
    rw [hhandle] at h
    cases h
    obtain ⟨hbound, slot, hget, hname⟩ := hwired.handles hhandle
    exact ⟨⟨hwired, .refl _⟩, .reference displayName hbound hget hname .nil⟩
  | none =>
    rw [hhandle] at h
    cases hnode : definitions.node? identifier with
    | none =>
      rw [hnode] at h
      cases h
    | some body =>
      rw [hnode] at h
      cases depth with
      | zero => cases h
      | succ depth =>
        have hentered : (do
            SchemaDraft.fill draft.graph.lazies.size (← buildWithin definitions depth body)
            return draft.graph.size : Build SchemaId).run.run (draft.enter identifier) =
              (.ok id, draft') := h
        obtain ⟨target, d₁, hbuilt, hrest⟩ := run_bind_eq_ok hentered
        cases hrest
        obtain ⟨hleads, hbody⟩ := hbodies depth rfl body (hwired.enter hhandle) hbuilt
        -- the lazy and its handle are as they were when the definition was entered
        have hname := hleads.grows.name ((draft.name?_enter identifier _).trans (if_pos rfl))
        have hbound : draft.graph.size < (draft.enter identifier).graph.size :=
          Nat.lt_of_lt_of_eq (Nat.lt_succ_self _) (SchemaGraph.size_add ..).symm
        have hhandle := (hleads.grows.get hbound).trans (draft.get_enter identifier)
        have hnormal : definitions.normalize.node? identifier = some body.normalize := by
          rw [DefinitionMap.node?_normalize, hnode, Option.map_some]
        have hgrows := d₁.graph.grows_fill draft.graph.lazies.size target
        refine ⟨⟨hleads.wired.fill hname hnormal hbody, ?_⟩, ?_⟩
        · exact ((draft.grows_enter identifier).trans hleads.grows).trans hgrows
        · exact .reference displayName (Nat.lt_of_lt_of_le hbound hleads.grows.size) hhandle
            (hgrows.name hname) .nil

theorem realizes_reference (identifier : String) (displayName : Option String) :
    Realizes definitions depth (.reference identifier displayName) := by
  induction depth generalizing identifier displayName with
  | zero => exact realizes_reference_of_bodies (fun _ h => absurd h (Nat.succ_ne_zero _).symm) _ _
  | succ depth ih =>
    refine realizes_reference_of_bodies ?_ identifier displayName
    rintro less ⟨rfl⟩ body
    exact realizes_of_references ih body

/-- A build that succeeds has made a schema that stands for the normal form of the node. -/
theorem realizes_buildWithin (depth : Nat) (node : Node) : Realizes definitions depth node :=
  realizes_of_references realizes_reference node

end SchemaDraft

/-- The graph of a node describes the definitions that it names, and its root stands for the
node. -/
theorem SchemaGraph.represents_ofNode {definitions : DefinitionMap} {node : Node}
    {graph : SchemaGraph} {root : SchemaId} (h : ofNode definitions node = .ok (graph, root)) :
    graph.Describes definitions.normalize ∧ graph.Represents [root] [node.normalize] := by
  unfold ofNode SchemaDraft.build at h
  cases hrun : (SchemaDraft.buildWithin definitions definitions.size node).run.run {} with
  | mk result draft =>
    rw [hrun] at h
    cases result with
    | error halt => cases h
    | ok id =>
      cases h
      obtain ⟨⟨hwired, -⟩, hroot⟩ := SchemaDraft.realizes_buildWithin _ node .empty hrun
      refine ⟨⟨?_, fun hname => hwired.bodies hname List.not_mem_nil⟩, hroot⟩
      -- the lazies of one definition have one handle, which leads to one lazy
      intro slot other name hname hname'
      obtain ⟨handle, hhandle, hget⟩ := hwired.lazies hname
      obtain ⟨handle', hhandle', hget'⟩ := hwired.lazies hname'
      cases hhandle.symm.trans hhandle'
      cases hget.symm.trans hget'
      rfl

end TypeGraph
