import TypeGraph.Proofs.Definition.Order
import TypeGraph.Proofs.Registry.History
import TypeGraph.Proofs.SchemaGraph.Represents
import TypeGraph.SchemaGraph.ToNode

/-!
# What is read back

A graph that describes definitions is read back into them. The reading registers each lazy when it
first comes to it and goes into its target, which is the walk of `DefinitionMap.explored`. All that
is read is what the schemas stand for, under new identifiers; `Agrees` says of a renaming that it
gives the definitions that are registered so far their identifiers, so that what has been read stays
right while more definitions are registered.

Main results:

* `SchemaGraph.exists_imports`: schemas that stand for nodes are read back, and what that leaves
  behind.
* `SchemaGraph.exists_toExtraction`: so is a graph from its root.
-/

namespace TypeGraph.SchemaGraph

variable {graph : SchemaGraph} {definitions : DefinitionMap}
  {registry registry' registry₁ registry₂ : Registry LazyId}

/-! ## Running an import -/

theorem run_bind_of_eq {α β : Type} {visit : Import α} {f : α → Import β} {value : α}
    (h : visit.run.run registry = (.ok value, registry')) :
    (visit >>= f).run.run registry = (f value).run.run registry' := by
  rw [ExceptT.run_bind, StateT.run_bind, h]
  rfl

theorem run_bind_of_error {α β : Type} {visit : Import α} {f : α → Import β} {halt : Halt}
    (h : visit.run.run registry = (.error halt, registry')) :
    (visit >>= f).run.run registry = (.error halt, registry') := by
  rw [ExceptT.run_bind, StateT.run_bind, h]
  rfl

theorem run_bind_eq_ok {α β : Type} {visit : Import α} {f : α → Import β} {value : β}
    (h : (visit >>= f).run.run registry = (.ok value, registry')) :
    ∃ first registry₁, visit.run.run registry = (.ok first, registry₁) ∧
      (f first).run.run registry₁ = (.ok value, registry') := by
  rw [ExceptT.run_bind, StateT.run_bind] at h
  rcases hfirst : visit.run.run registry with ⟨⟨halt⟩ | ⟨first⟩, registry₁⟩
  · rw [hfirst] at h
    cases h
  · rw [hfirst] at h
    exact ⟨first, registry₁, rfl, h⟩

theorem run_getThe (registry : Registry LazyId) :
    (getThe (Registry LazyId) : Import (Registry LazyId)).run.run registry =
      (.ok registry, registry) := rfl

theorem run_intern_of_lookup {slot : LazyId} {label : Option String} {resolve : Import Node}
    {reference : Node} (h : registry.lookup slot = some reference) :
    (Registry.intern slot label resolve : Import Node).run.run registry =
      (.ok reference, registry) := by
  unfold Registry.intern
  rw [run_bind_of_eq (run_getThe registry), h]
  rfl

theorem run_intern_of_new {slot : LazyId} {label : Option String} {resolve : Import Node}
    {body : Node} (h : registry.lookup slot = none)
    (hresolve : resolve.run.run (registry.register slot label).2 = (.ok body, registry')) :
    (Registry.intern slot label resolve : Import Node).run.run registry =
      (.ok (.reference (registry.freeIdentifier label) label),
        registry'.complete (registry.freeIdentifier label) body) := by
  unfold Registry.intern
  rw [run_bind_of_eq (run_getThe registry), h]
  change (resolve >>= _ : Import Node).run.run (registry.register slot label).2 = _
  rw [run_bind_of_eq hresolve]
  rfl

theorem run_intern_of_error {slot : LazyId} {label : Option String} {resolve : Import Node}
    {halt : Halt} (h : registry.lookup slot = none)
    (hresolve : resolve.run.run (registry.register slot label).2 = (.error halt, registry')) :
    (Registry.intern slot label resolve : Import Node).run.run registry =
      (.error halt, registry') := by
  unfold Registry.intern
  rw [run_bind_of_eq (run_getThe registry), h]
  change (resolve >>= _ : Import Node).run.run (registry.register slot label).2 = _
  exact run_bind_of_error hresolve

/-! ## Levels -/

section

variable {visit : SchemaId → Import Node} {results : List Node}

theorem run_mapM_singleton {id : SchemaId}
    (h : ([id].mapM visit).run.run registry = (.ok results, registry')) :
    ∃ result, results = [result] ∧ (visit id).run.run registry = (.ok result, registry') := by
  rw [List.mapM_cons] at h
  obtain ⟨result, r₁, hresult, h⟩ := run_bind_eq_ok h
  cases h
  exact ⟨result, rfl, hresult⟩

theorem run_mapM_pair {id id' : SchemaId}
    (h : ([id, id'].mapM visit).run.run registry = (.ok results, registry')) :
    ∃ result result' registry₁, results = [result, result'] ∧
      (visit id).run.run registry = (.ok result, registry₁) ∧
      (visit id').run.run registry₁ = (.ok result', registry') := by
  rw [List.mapM_cons] at h
  obtain ⟨result, r₁, hresult, h⟩ := run_bind_eq_ok h
  obtain ⟨results', r₂, hresults', h⟩ := run_bind_eq_ok h
  obtain ⟨result', rfl, hresult'⟩ := run_mapM_singleton hresults'
  cases h
  exact ⟨result, result', r₁, rfl, hresult, hresult'⟩

theorem run_mapM_append {ids ids' : List SchemaId}
    (h : ((ids ++ ids').mapM visit).run.run registry = (.ok results, registry')) :
    ∃ before after registry₁, results = before ++ after ∧
      (ids.mapM visit).run.run registry = (.ok before, registry₁) ∧
      (ids'.mapM visit).run.run registry₁ = (.ok after, registry') := by
  rw [List.mapM_append] at h
  obtain ⟨before, r₁, hbefore, h⟩ := run_bind_eq_ok h
  obtain ⟨after, r₂, hafter, h⟩ := run_bind_eq_ok h
  cases h
  exact ⟨before, after, r₁, rfl, hbefore, hafter⟩

theorem run_mapM_length {ids : List SchemaId}
    (h : (ids.mapM visit).run.run registry = (.ok results, registry')) :
    results.length = ids.length := by
  induction ids generalizing registry results with
  | nil =>
    cases h
    rfl
  | cons id rest ih =>
    rw [List.mapM_cons] at h
    obtain ⟨result, r₁, hresult, h⟩ := run_bind_eq_ok h
    obtain ⟨results', r₂, hresults', h⟩ := run_bind_eq_ok h
    cases h
    rw [List.length_cons, List.length_cons, ih hresults']

theorem exists_cons_of_run_mapM {ids : List SchemaId} {first : Node} {rest : List Node}
    (h : (ids.mapM visit).run.run registry = (.ok results, registry'))
    (hlength : ids.length = (first :: rest).length) :
    ∃ result others, results = result :: others := by
  refine List.exists_cons_of_length_pos ?_
  rw [run_mapM_length h, hlength]
  exact Nat.succ_pos _

/-- Properties are read in their order, each under its name. -/
theorem run_mapM_properties {entries : List (String × SchemaId)}
    (h : ((entries.map Prod.snd).mapM visit).run.run registry = (.ok results, registry')) :
    (entries.mapM fun property =>
        (return (property.1, ← visit property.2) : Import (String × Node))).run.run registry =
      (.ok ((entries.map Prod.fst).zip results), registry') := by
  induction entries generalizing registry results with
  | nil =>
    cases h
    rfl
  | cons property rest ih =>
    rw [List.map_cons, List.mapM_cons] at h
    obtain ⟨result, r₁, hresult, h⟩ := run_bind_eq_ok h
    obtain ⟨results', r₂, hresults', h⟩ := run_bind_eq_ok h
    cases h
    have hproperty : (return (property.1, ← visit property.2) : Import (String × Node)).run.run
        registry = (.ok (property.1, result), r₁) := by
      rw [run_bind_of_eq hresult]
      rfl
    rw [List.mapM_cons, run_bind_of_eq hproperty, run_bind_of_eq (ih hresults')]
    rfl

theorem run_mapM_toList {id : Option SchemaId}
    (h : (id.toList.mapM visit).run.run registry = (.ok results, registry')) :
    ∃ result, results = result.toList ∧
    (id.mapM visit).run.run registry = (.ok result, registry') := by
  cases id with
  | none =>
    cases h
    exact ⟨none, rfl, rfl⟩
  | some id =>
    obtain ⟨result, rfl, hresult⟩ := run_mapM_singleton h
    refine ⟨some result, rfl, ?_⟩
    change (some <$> visit id : Import (Option Node)).run.run registry = _
    rw [← bind_pure_comp, run_bind_of_eq hresult]
    rfl

end

open Node (rename)

/-- What the schemas of a level are read as makes up what the level is read as. Renamed parts make
up the renamed node. -/
theorem exists_import_level {id : SchemaId} {node : Node} {ids : List SchemaId}
    {parts results : List Node} {depth : Nat} (hlevel : (graph.get id).Level node ids parts)
    (hlength : ids.length = parts.length)
    (hparts : (ids.mapM (graph.importWithin depth)).run.run registry = (.ok results, registry')) :
    ∃ result, (graph.importWithin (depth + 1) id).run.run registry = (.ok result, registry') ∧
      ∀ names, results = parts.map (rename names) → result = node.rename names := by
  rw [importWithin]
  generalize graph.get id = schema at hlevel
  cases hlevel with
  | primitive p =>
    cases hparts
    exact ⟨.primitive p, rfl, fun _ _ => rfl⟩
  | literal value =>
    cases hparts
    exact ⟨.literal value, rfl, fun _ _ => rfl⟩
  | array elementId element =>
    obtain ⟨result, rfl, hresult⟩ := run_mapM_singleton hparts
    refine ⟨.array result, by dsimp only; rw [run_bind_of_eq hresult]; rfl, ?_⟩
    intro names h
    cases h
    rfl
  | set elementId element =>
    obtain ⟨result, rfl, hresult⟩ := run_mapM_singleton hparts
    refine ⟨.set result, by dsimp only; rw [run_bind_of_eq hresult]; rfl, ?_⟩
    intro names h
    cases h
    rfl
  | record keyId valueId key value =>
    obtain ⟨key', value', r₁, rfl, hkey, hvalue⟩ := run_mapM_pair hparts
    refine ⟨.record key' value',
      by dsimp only; rw [run_bind_of_eq hkey, run_bind_of_eq hvalue]; rfl, ?_⟩
    intro names h
    cases h
    rfl
  | map keyId valueId key value =>
    obtain ⟨key', value', r₁, rfl, hkey, hvalue⟩ := run_mapM_pair hparts
    refine ⟨.map key' value',
      by dsimp only; rw [run_bind_of_eq hkey, run_bind_of_eq hvalue]; rfl, ?_⟩
    intro names h
    cases h
    rfl
  | object properties shape hnames =>
    have hread := run_mapM_properties hparts
    refine ⟨.objectOf (properties.keys.zip results),
      by dsimp only; rw [run_bind_of_eq hread]; rfl, ?_⟩
    rintro names rfl
    -- the names are distinct, so each property is as it was read
    have hzip : properties.keys.zip ((shape.map Prod.snd).map (rename names)) =
        shape.map fun property => (property.1, property.2.rename names) := by
      rw [hnames, List.map_map, List.zip_map']
      rfl
    have hnodup : ((shape.map fun property => (property.1, property.2.rename names)).map
        Prod.fst).Nodup := by
      rw [List.map_map]
      exact hnames ▸ properties.keys_nodup
    rw [hzip, Node.objectOf, Entries.ofList_eq_self hnodup, Node.rename_object]
  | optional contentId content hrequired =>
    obtain ⟨result, rfl, hresult⟩ := run_mapM_singleton hparts
    refine ⟨result.optional, by dsimp only; rw [run_bind_of_eq hresult]; rfl, ?_⟩
    intro names h
    cases h
    -- a node that is not optional is made so, which a renaming does not change
    have hrequired : ¬ (content.rename names).isOptional = true := by
      rw [Node.isOptional_rename, hrequired]
      exact Bool.false_ne_true
    rw [Node.optional, if_neg hrequired]
    rfl
  | union ids first second rest =>
    obtain ⟨result, others, rfl⟩ := exists_cons_of_run_mapM hparts hlength
    refine ⟨.union result others, by dsimp only; rw [run_bind_of_eq hparts]; rfl, ?_⟩
    intro names h
    cases h
    rw [Node.rename_union]
  | tuple ids first rest =>
    obtain ⟨result, others, rfl⟩ := exists_cons_of_run_mapM hparts hlength
    refine ⟨.tuple result others, by dsimp only; rw [run_bind_of_eq hparts]; rfl, ?_⟩
    intro names h
    cases h
    rw [Node.rename_tuple]
  | intersection ids first rest =>
    obtain ⟨result, others, rfl⟩ := exists_cons_of_run_mapM hparts hlength
    refine ⟨.intersection result others, by dsimp only; rw [run_bind_of_eq hparts]; rfl, ?_⟩
    intro names h
    cases h
    rw [Node.rename_intersection]
  | function ids id parameters returns harity =>
    obtain ⟨before, after, r₁, rfl, hbefore, hafter⟩ := run_mapM_append hparts
    obtain ⟨result, rfl, hresult⟩ := run_mapM_toList hafter
    refine ⟨.function before result, ?_, ?_⟩
    · dsimp only
      rw [run_bind_of_eq hbefore, run_bind_of_eq hresult]
      rfl
    · intro names h
      -- the parameters are as many as they were, so what follows them is the result
      have hcount : before.length = (parameters.map (rename names)).length := by
        rw [run_mapM_length hbefore, harity, List.length_map]
      rw [List.map_append] at h
      obtain ⟨rfl, hreturns⟩ := List.append_inj h hcount
      have hreturns : result = returns.map (rename names) := by
        cases result <;> cases returns <;> first | rfl | cases hreturns <;> rfl
      rw [hreturns, Node.rename_function]

/-! ## The registry -/

/-- The renaming gives the definitions of all registered lazies the identifiers that they have. -/
def Agrees (graph : SchemaGraph) (registry : Registry LazyId) (names : String → String) : Prop :=
  ∀ {slot : LazyId} {name identifier : String}, graph.name? slot = some name →
    registry.identifier? slot = some identifier → names name = identifier

theorem Agrees.of_extends {names : String → String} (h : Agrees graph registry' names)
    (hextends : registry.Extends registry') : Agrees graph registry names :=
  fun hname hidentifier => h hname (hextends.identifiers hidentifier)

/-- A name that may stay as it is. -/
def Proper (name : String) : Prop :=
  Identifier.isTypeName name = true ∧ name ∉ Registry.reservedNames

/-- What has been read so far. Every registered lazy has a definition with its name for a label; a
definition that is not pending has the body that the lazy stands for. -/
structure Imported (graph : SchemaGraph) (definitions : DefinitionMap)
    (registry : Registry LazyId) :
    Prop where
  valid : registry.Valid
  definition :
      ∀ {slot : LazyId} {identifier : String}, registry.identifier? slot = some identifier →
    ∃ name definition, graph.name? slot = some name ∧
      registry.definitions.get? identifier = some definition ∧ definition.label = some name ∧
      (identifier ∈ registry.pending ∨ ∃ body, definitions.node? name = some body ∧
        ∀ names, Agrees graph registry names → definition.node = body.rename names)
  /-- Names that are proper stay as they are. -/
  unchanged : (∀ slot name identifier, graph.name? slot = some name →
      registry.identifier? slot = some identifier → Proper name) →
    ∀ slot name identifier, graph.name? slot = some name →
      registry.identifier? slot = some identifier → identifier = name

theorem Imported.empty : Imported graph definitions .empty where
  valid := .start false
  definition h := by cases h
  unchanged _ _ _ _ _ h := by cases h

/-- The names of the registered lazies, in the order of registration. -/
def seen (graph : SchemaGraph) (registry : Registry LazyId) : List String :=
  registry.identities.keys.map graph.lazyName

/-- Registering a lazy leaves a placeholder with its name. -/
theorem Imported.register (h : Imported graph definitions registry)
    (hdescribes : graph.Describes definitions) {slot : LazyId} {name : String}
    (hname : graph.name? slot = some name) (hnew : registry.identifier? slot = none) :
    Imported graph definitions (registry.register slot (some name)).2 := by
  have hextends := Registry.Extends.register registry (some name) hnew
  refine ⟨h.valid.register _ hnew, ?_, ?_⟩
  · intro other identifier hi
    rw [Registry.identifier?_register] at hi
    split at hi
    · rename_i heq
      cases hi
      refine ⟨name, ⟨.unknown, some name⟩, heq ▸ hname, ?_, rfl, .inl List.mem_cons_self⟩
      rw [Registry.get?_register, if_pos rfl]
    · obtain ⟨name', definition, hname', hd, hlabel, hbody⟩ := h.definition hi
      refine ⟨name', definition, hname', hextends.definitions hd, hlabel, ?_⟩
      rcases hbody with hpending | ⟨body, hbody, hnames⟩
      · exact .inl (List.mem_cons_of_mem _ hpending)
      · exact .inr ⟨body, hbody, fun names hagrees => hnames names (hagrees.of_extends hextends)⟩
  · intro hproper other name' identifier hname' hi
    -- what was registered before has the name that it had
    have hold := h.unchanged fun slot name identifier hname hi =>
      hproper slot name identifier hname (hextends.identifiers hi)
    rw [Registry.identifier?_register] at hi
    split at hi
    · rename_i heq
      subst heq
      cases hname.symm.trans hname'
      cases hi
      obtain ⟨htype, hreserved⟩ := hproper other name _ hname
        ((Registry.identifier?_register ..).trans (if_pos rfl))
      refine Registry.freeIdentifier_eq_self htype hreserved ?_
      -- the name is free, or its lazy would be registered already
      intro hmem
      obtain ⟨slot, hslot⟩ := h.valid.exists_key hmem
      obtain ⟨name', definition, hname', -⟩ := h.definition hslot
      cases hold slot name' name hname' hslot
      cases hdescribes.unique hname hname'
      rw [hnew] at hslot
      cases hslot
    · exact hold other name' identifier hname' hi

/-- A lazy that is registered answers with its identifier and its name. -/
theorem Imported.lookup_eq (h : Imported graph definitions registry) {slot : LazyId}
    {name identifier : String} (hname : graph.name? slot = some name)
    (hi : registry.identifier? slot = some identifier) :
    registry.lookup slot = some (.reference identifier (some name)) := by
  obtain ⟨name', definition, hname', hd, hlabel, -⟩ := h.definition hi
  cases hname.symm.trans hname'
  simp only [Registry.lookup, hi, Option.bind_eq_bind, Option.bind_some, DefinitionMap.reference?,
    hd, Option.map_some, hlabel]

/-- Completing a definition with the body that its lazy stands for. -/
theorem Imported.complete (h : Imported graph definitions registry) {slot : LazyId} {name : String}
    (hname : graph.name? slot = some name) {identifier : String}
    (hi : registry.identifier? slot = some identifier) {body result : Node}
    (hbody : definitions.node? name = some body)
    (hresult : ∀ names, Agrees graph registry names → result = body.rename names) :
    Imported graph definitions (registry.complete identifier result) where
  valid := h.valid.complete identifier result
  definition {other identifier'} ho := by
    rw [Registry.identifier?_complete] at ho
    obtain ⟨name', definition, hname', hd, hlabel, hbody'⟩ := h.definition ho
    rw [Registry.get?_complete]
    by_cases heq : identifier' = identifier
    · -- the identifier belongs to one lazy
      subst heq
      cases h.valid.key_unique hi ho
      cases hname.symm.trans hname'
      refine ⟨name, { definition with node := result }, hname, ?_, hlabel,
        .inr ⟨body, hbody, hresult⟩⟩
      rw [if_pos rfl, hd, Option.map_some]
    · rw [if_neg heq]
      refine ⟨name', definition, hname', hd, hlabel, ?_⟩
      rcases hbody' with hpending | hbody'
      · exact .inl ((Registry.mem_pending_complete ..).mpr ⟨hpending, heq⟩)
      · exact .inr hbody'
  unchanged := h.unchanged

/-! ## What an import does -/

/-- An import has gone from one registry to another, and has read the nodes, as far as their
identifiers are known. -/
structure Imports (graph : SchemaGraph) (definitions : DefinitionMap)
    (registry registry' : Registry LazyId) (nodes results : List Node) : Prop where
  imported : Imported graph definitions registry'
  growth : registry.Extends registry'
  pending : registry'.pending ⊆ registry.pending
  results : ∀ names, Agrees graph registry' names → results = nodes.map (rename names)
  explored : ∀ rest,
      definitions.explored (graph.seen registry) (nodes.flatMap Node.mentions ++ rest) =
    definitions.explored (graph.seen registry') rest

section

variable {node result : Node} {nodes results : List Node}

theorem Imports.nil (h : Imported graph definitions registry) :
    Imports graph definitions registry registry [] [] :=
  ⟨h, .refl _, List.Subset.refl _, fun _ _ => rfl, fun _ => rfl⟩

theorem Imports.cons (h : Imports graph definitions registry registry₁ [node] [result])
    (h' : Imports graph definitions registry₁ registry' nodes results) :
    Imports graph definitions registry registry' (node :: nodes) (result :: results) where
  imported := h'.imported
  growth := h.growth.trans h'.growth
  pending := List.Subset.trans h'.pending h.pending
  results names hagrees := by
    have hfirst := h.results names (hagrees.of_extends h'.growth)
    rw [List.map_cons, ← h'.results names hagrees, (List.cons.inj hfirst).1]
  explored rest := by
    have hfirst := h.explored (nodes.flatMap Node.mentions ++ rest)
    rw [List.flatMap_singleton] at hfirst
    rw [List.flatMap_cons, List.append_assoc, hfirst, h'.explored]

/-- A level is read from its parts. -/
theorem Imports.level {schema : Schema} {ids : List SchemaId} {parts : List Node}
    (hlevel : schema.Level node ids parts)
    (h : Imports graph definitions registry registry' parts results)
    (hresult : ∀ names, results = parts.map (rename names) → result = node.rename names) :
    Imports graph definitions registry registry' [node] [result] where
  imported := h.imported
  growth := h.growth
  pending := h.pending
  results names hagrees := by
    rw [hresult names (h.results names hagrees), List.map_singleton]
  explored rest := by
    rw [List.flatMap_singleton, hlevel.mentions_eq]
    exact h.explored rest

theorem mem_seen_iff {name : String} (h : Imported graph definitions registry)
    (hdescribes : graph.Describes definitions) {slot : LazyId}
    (hname : graph.name? slot = some name) :
    name ∈ graph.seen registry ↔ ∃ identifier, registry.identifier? slot = some identifier := by
  unfold seen
  rw [List.mem_map]
  constructor
  · rintro ⟨other, hother, heq⟩
    obtain ⟨identifier, hi⟩ := OrderedMap.mem_keys_iff.mp hother
    obtain ⟨name', -, hname', -⟩ := h.definition hi
    -- lazies of one name are one
    rw [lazyName_eq hname'] at heq
    cases hdescribes.unique hname (heq ▸ hname')
    exact ⟨identifier, hi⟩
  · rintro ⟨identifier, hi⟩
    exact ⟨slot, OrderedMap.mem_keys_iff.mpr ⟨identifier, hi⟩, lazyName_eq hname⟩

/-- A lazy that is registered is read as a reference. -/
theorem Imports.met (h : Imported graph definitions registry)
    (hdescribes : graph.Describes definitions) {slot : LazyId} {name identifier : String}
    (displayName : Option String) (hname : graph.name? slot = some name)
    (hi : registry.identifier? slot = some identifier) :
    Imports graph definitions registry registry [.reference name displayName]
      [.reference identifier (some name)] where
  imported := h
  growth := .refl _
  pending := List.Subset.refl _
  results names hagrees := by
    rw [List.map_singleton, Node.rename_reference, hagrees hname hi]
  explored rest := by
    have hseen := (mem_seen_iff h hdescribes hname).mpr ⟨identifier, hi⟩
    exact DefinitionMap.explored_of_seen hseen

/-- A lazy that is new is read as a reference too, and its body as the body of a new definition. -/
theorem Imports.entered (h : Imported graph definitions registry)
    (hdescribes : graph.Describes definitions) {slot : LazyId} {name : String}
    (displayName : Option String) (hname : graph.name? slot = some name)
    (hnew : registry.identifier? slot = none) {body : Node}
    (hbody : definitions.node? name = some body)
    (hinner : Imports graph definitions (registry.register slot (some name)).2 registry'
      [body] [result]) :
    Imports graph definitions registry
      (registry'.complete (registry.freeIdentifier (some name)) result)
        [.reference name displayName]
      [.reference (registry.freeIdentifier (some name)) (some name)] := by
  have hregistered :=
    (Registry.identifier?_register registry slot (some name) slot).trans (if_pos rfl)
  have hi := hinner.growth.identifiers hregistered
  have hextends := (Registry.Extends.register registry (some name) hnew).trans hinner.growth
  refine ⟨?_, ?_, ?_, ?_, ?_⟩
  · refine hinner.imported.complete hname hi hbody ?_
    intro names hagrees
    exact (List.cons.inj (hinner.results names hagrees)).1
  · exact hextends.complete (registry.freeIdentifier_not_mem _) _
  · intro other ho
    obtain ⟨ho, hne⟩ := (Registry.mem_pending_complete ..).mp ho
    exact (List.mem_cons.mp (hinner.pending ho)).resolve_left hne
  · intro names hagrees
    rw [List.map_singleton, Node.rename_reference, hagrees hname hi]
  · -- the new definition is the next one that is explored
    intro rest
    have hseen : name ∉ graph.seen registry := by
      rw [mem_seen_iff h hdescribes hname, hnew]
      rintro ⟨_, hi⟩
      cases hi
    have hkey : name ∈ definitions.keys := by
      rw [← DefinitionMap.node?_isSome_iff, hbody]
      rfl
    have hregister :
        graph.seen (registry.register slot (some name)).2 = graph.seen registry ++ [name] := by
      rw [seen, Registry.identities_register _ hnew, List.map_append, List.map_singleton,
        lazyName_eq hname]
      rfl
    have hexplored := hinner.explored rest
    rw [hregister, List.flatMap_singleton] at hexplored
    rw [List.flatMap_singleton]
    change definitions.explored _ (name :: rest) = definitions.explored (graph.seen registry') rest
    rw [DefinitionMap.explored_of_new hkey hseen, DefinitionMap.mentionsOf, hbody]
    exact hexplored

end

/-! ## The bound on the levels -/

/-- How many lazies are not registered. -/
def remaining (graph : SchemaGraph) (registry : Registry LazyId) : Nat :=
  graph.lazies.size - registry.identities.size

/-- With a new lazy registered there is one less to register. -/
theorem remaining_register {slot : LazyId}
    (hslots : ∀ other identifier, registry.identifier? other = some identifier →
      other < graph.lazies.size)
    (hslot : slot < graph.lazies.size) (hnew : registry.identifier? slot = none)
    (label : Option String) :
    graph.remaining (registry.register slot label).2 + 1 = graph.remaining registry := by
  have hkeys := Registry.identities_register label hnew
  -- the registered lazies are lazies of the graph, and so is the new one
  have hsubset :
      (registry.register slot label).2.identities.keys ⊆ List.range graph.lazies.size := by
    intro other ho
    rw [hkeys, List.mem_append, List.mem_singleton] at ho
    rw [List.mem_range]
    rcases ho with ho | rfl
    · obtain ⟨identifier, hi⟩ := OrderedMap.mem_keys_iff.mp ho
      exact hslots other identifier hi
    · exact hslot
  have hle := (List.subperm_of_subset (OrderedMap.keys_nodup _) hsubset).length_le
  have hsize := congrArg List.length hkeys
  rw [List.length_range] at hle
  rw [List.length_append, List.length_singleton, OrderedMap.length_keys,
    OrderedMap.length_keys] at hsize
  rw [OrderedMap.length_keys] at hle
  unfold remaining
  omega

/-- Lazies that are registered are lazies of the graph. -/
theorem Imported.slot_lt (h : Imported graph definitions registry) {slot : LazyId}
    {identifier : String} (hi : registry.identifier? slot = some identifier) :
    slot < graph.lazies.size := by
  obtain ⟨name, -, hname, -⟩ := h.definition hi
  exact name?_isSome_iff.mp (Option.isSome_of_mem hname)

theorem remaining_le (hextends : registry.Extends registry') (h : registry.Valid)
    (h' : registry'.Valid) : graph.remaining registry' ≤ graph.remaining registry :=
  Nat.sub_le_sub_left (hextends.size_le h h') _

/-- With one lazy less to register, there are levels for everything up to any schema. -/
theorem levels_of_entered {count size target id depth : Nat} (hbound : target < size)
    (hdepth : (count + 1) * (size + 1) + id < depth + 1) : count * (size + 1) + target < depth := by
  rw [Nat.succ_mul] at hdepth
  omega

/-! ## Importing -/

/-- Schemas are read one after the other if each of them is read. -/
theorem exists_imports_of_each {depth : Nat} {ids : List SchemaId} {nodes : List Node}
    (heach : ∀ registry id node, graph.Represents [id] [node] →
      Imported graph definitions registry →
      graph.remaining registry * (graph.size + 1) + id < depth →
      ∃ result registry',
        (graph.importWithin depth id).run.run registry = (.ok result, registry') ∧
        Imports graph definitions registry registry' [node] [result])
    (hrepresents : graph.Represents ids nodes) (himported : Imported graph definitions registry)
    (hdepth : ∀ id ∈ ids, graph.remaining registry * (graph.size + 1) + id < depth) :
    ∃ results registry', (ids.mapM (graph.importWithin depth)).run.run registry =
        (.ok results, registry') ∧ Imports graph definitions registry registry' nodes results := by
  induction ids generalizing registry nodes with
  | nil =>
    cases hrepresents
    exact ⟨[], registry, rfl, .nil himported⟩
  | cons id rest ih =>
    cases nodes with
    | nil => cases hrepresents
    | cons node nodes =>
      obtain ⟨result, r₁, hresult, hfirst⟩ :=
        heach registry id node hrepresents.first himported (hdepth id List.mem_cons_self)
      -- the first schema may have registered lazies, but has taken none back
      have hremaining : graph.remaining r₁ ≤ graph.remaining registry :=
        remaining_le hfirst.growth himported.valid hfirst.imported.valid
      have hdepth' : ∀ other ∈ rest, graph.remaining r₁ * (graph.size + 1) + other < depth := by
        intro other ho
        have hle := Nat.mul_le_mul_right (graph.size + 1) hremaining
        have hlt := hdepth other (List.mem_cons_of_mem _ ho)
        omega
      obtain ⟨results, r₂, hresults, hrest⟩ := ih hrepresents.others hfirst.imported hdepth'
      refine ⟨result :: results, r₂, ?_, hfirst.cons hrest⟩
      rw [List.mapM_cons, run_bind_of_eq hresult, run_bind_of_eq hresults]
      rfl

/-- A schema that stands for a node is read, while there are levels for what it is made of and for
the lazies that are not registered. -/
theorem exists_import (hdescribes : graph.Describes definitions) {depth : Nat} {id : SchemaId}
    {node : Node} (hrepresents : graph.Represents [id] [node])
    (himported : Imported graph definitions registry)
    (hdepth : graph.remaining registry * (graph.size + 1) + id < depth) :
    ∃ result registry', (graph.importWithin depth id).run.run registry = (.ok result, registry') ∧
      Imports graph definitions registry registry' [node] [result] := by
  -- induction on the depth: schemas below have smaller ids, and a lazy that is entered is
  -- registered
  induction depth generalizing registry id node with
  | zero => exact absurd hdepth (Nat.not_lt_zero _)
  | succ depth ih =>
    cases hrepresents with
    | @level _ ids _ _ parts _ bound below level inner =>
      have hbelow : ∀ child ∈ ids, graph.remaining registry * (graph.size + 1) + child < depth := by
        intro child hc
        have hle :=
          Nat.add_lt_add_left (below child hc) (graph.remaining registry * (graph.size + 1))
        exact Nat.lt_of_lt_of_le hle (Nat.le_of_lt_succ hdepth)
      obtain ⟨results, registry', hresults, himports⟩ :=
        exists_imports_of_each (fun _ _ _ => ih) inner himported hbelow
      obtain ⟨result, hresult, hrenamed⟩ := exists_import_level level inner.length_eq hresults
      exact ⟨result, registry', hresult, himports.level level hrenamed⟩
    | @reference _ slot name displayName _ _ bound schema hname =>
      rw [importWithin, schema]
      dsimp only
      rw [lazyName_eq hname]
      cases hi : registry.identifier? slot with
      | some identifier =>
        have hlookup := himported.lookup_eq hname hi
        exact ⟨_, registry, run_intern_of_lookup hlookup, .met himported hdescribes _ hname hi⟩
      | none =>
        obtain ⟨target, body, htarget, hbody, hrepresents⟩ := hdescribes.bodies hname
        have hregistered := himported.register hdescribes hname hi
        have hslot := name?_isSome_iff.mp (Option.isSome_of_mem hname)
        have hremaining := remaining_register (fun _ _ => himported.slot_lt) hslot hi (some name)
        have hbound := hrepresents.bound target List.mem_cons_self
        have hdepth' :
            graph.remaining (registry.register slot (some name)).2 * (graph.size + 1) + target <
              depth := by
          rw [← hremaining] at hdepth
          exact levels_of_entered hbound hdepth
        obtain ⟨result, registry', hresult, himports⟩ := ih hrepresents hregistered hdepth'
        refine ⟨_, _, run_intern_of_new (himported.valid.lookup_eq_none_iff.mpr hi) ?_,
          .entered himported hdescribes displayName hname hi hbody himports⟩
        rw [lazyTarget_eq htarget]
        exact hresult

/-- A graph that describes definitions is read from its root into the definitions that this leads
to. -/
theorem exists_toExtraction (hdescribes : graph.Describes definitions) {root : SchemaId}
    {node : Node} (hrepresents : graph.Represents [root] [node]) :
    ∃ result registry, graph.toExtraction root = .ok ⟨result, registry.definitions⟩ ∧
      Imports graph definitions .empty registry [node] [result] := by
  have hroot := hrepresents.bound root List.mem_cons_self
  have hdepth : graph.remaining .empty * (graph.size + 1) + root <
      (graph.lazies.size + 1) * (graph.size + 1) := by
    rw [Nat.succ_mul]
    exact Nat.add_lt_add_of_le_of_lt (Nat.mul_le_mul_right _ (Nat.sub_le ..))
      (Nat.lt_succ_of_lt hroot)
  obtain ⟨result, registry, hresult, himports⟩ := exists_import hdescribes hrepresents .empty hdepth
  refine ⟨result, registry, ?_, himports⟩
  rw [toExtraction, hresult]
  rfl

end TypeGraph.SchemaGraph
