import TypeGraph.Proofs.SchemaGraph.Imports
import TypeGraph.Proofs.SchemaGraph.Wired

/-!
# From nodes to schemas and back

A node that is built into a schema graph is read back as its normal form, with the definitions that
it leads to in the order of first reference, under identifiers that are derived from the old ones.
The two halves meet at `SchemaGraph.Represents`: what is built stands for the normal node, and what
stands for a node is read as it.

Main result:

* `SchemaGraph.toExtraction_ofNode`: the round trip, for every node whose references can be
  resolved.
-/

namespace TypeGraph

/-- The extraction has the node and the definitions that it leads to, in the order of first
reference, under new identifiers. The old ones are the labels of the definitions and the display
names of the references. -/
structure Renames (definitions : DefinitionMap) (node : Node) (names : String → String)
    (extraction : Extraction) : Prop where
  root : extraction.root = node.rename names
  identifiers : extraction.definitions.keys = (definitions.referenceOrder node).map names
  bodies : ∀ identifier ∈ definitions.referenceOrder node, ∃ body,
    definitions.node? identifier = some body ∧
      extraction.definitions.get? (names identifier) = some ⟨body.rename names, some identifier⟩
  injective : ∀ identifier ∈ definitions.referenceOrder node,
    ∀ other ∈ definitions.referenceOrder node, names identifier = names other → identifier = other
  /-- Nothing is mentioned that is not a definition. -/
  closed : ∀ start ∈ node.mentions, ∀ identifier,
    Relation.ReflTransGen definitions.Refers start identifier →
      identifier ∈ definitions.referenceOrder node

namespace SchemaGraph

variable {graph : SchemaGraph} {definitions : DefinitionMap} {registry : Registry LazyId}

theorem exists_agrees (hdescribes : graph.Describes definitions) (registry : Registry LazyId) :
    ∃ names, Agrees graph registry names := by
  -- a name has one lazy, which has at most one identifier
  have hname (name : String) : ∃ identifier, ∀ slot identifier', graph.name? slot = some name →
      registry.identifier? slot = some identifier' → identifier = identifier' := by
    by_cases h : ∃ slot identifier, graph.name? slot = some name ∧
        registry.identifier? slot = some identifier
    · obtain ⟨slot, identifier, hslot, hi⟩ := h
      refine ⟨identifier, ?_⟩
      intro other identifier' hother hi'
      cases hdescribes.unique hslot hother
      exact Option.some.inj (hi.symm.trans hi')
    · exact ⟨name, fun slot identifier hslot hi => absurd ⟨slot, identifier, hslot, hi⟩ h⟩
  choose names hnames using hname
  exact ⟨names, fun hslot hi => hnames _ _ _ hslot hi⟩

/-- What is mentioned by what schemas stand for has a lazy. -/
theorem Represents.exists_name {ids : List SchemaId} {nodes : List Node}
    (h : graph.Represents ids nodes) :
    ∀ identifier ∈ nodes.flatMap Node.mentions, ∃ slot, graph.name? slot = some identifier := by
  induction h with
  | nil => exact fun _ h => absurd h List.not_mem_nil
  | level _ _ level _ _ ihInner ihOthers =>
    intro identifier hi
    rw [List.flatMap_cons, List.mem_append, level.mentions_eq] at hi
    exact hi.elim (ihInner identifier) (ihOthers identifier)
  | @reference _ slot _ _ _ _ _ _ name _ ihOthers =>
    intro identifier hi
    rw [List.flatMap_cons, List.mem_append] at hi
    rcases hi with hi | hi
    · exact ⟨slot, List.mem_singleton.mp hi ▸ name⟩
    · exact ihOthers identifier hi

/-- What the node of a graph leads to has a lazy. -/
theorem Describes.exists_name (hdescribes : graph.Describes definitions) {root : SchemaId}
    {node : Node} (hrepresents : graph.Represents [root] [node]) {start identifier : String}
    (hstart : start ∈ node.mentions)
    (hsteps : Relation.ReflTransGen definitions.Refers start identifier) :
    ∃ slot, graph.name? slot = some identifier := by
  -- induction along the way: the definition of a lazy is what its target stands for
  induction hsteps with
  | refl => exact hrepresents.exists_name start (by rwa [List.flatMap_singleton])
  | tail _ hrefers ih =>
    obtain ⟨slot, hslot⟩ := ih
    obtain ⟨target, body, -, hbody, hrepresents'⟩ := hdescribes.bodies hslot
    obtain ⟨body', hbody', hmention⟩ := DefinitionMap.refers_iff.mp hrefers
    cases hbody.symm.trans hbody'
    exact hrepresents'.exists_name _ (by rwa [List.flatMap_singleton])

theorem Describes.mem_keys (hdescribes : graph.Describes definitions) {slot : LazyId}
    {name : String} (hname : graph.name? slot = some name) : name ∈ definitions.keys := by
  obtain ⟨_, body, -, hbody, -⟩ := hdescribes.bodies hname
  rw [← DefinitionMap.node?_isSome_iff, hbody]
  rfl

section

variable {root : SchemaId} {node result : Node}
  (himports : Imports graph definitions .empty registry [node] [result])

include himports

/-- What is registered in the end is what the node leads to, in the order of first reference. -/
theorem Imports.seen_eq : graph.seen registry = definitions.referenceOrder node := by
  have hexplored := himports.explored []
  rw [List.flatMap_singleton, List.append_nil, DefinitionMap.explored] at hexplored
  exact hexplored.symm

theorem Imports.exists_slot {name : String} (h : name ∈ definitions.referenceOrder node) :
    ∃ slot identifier, graph.name? slot = some name ∧
    registry.identifier? slot = some identifier := by
  rw [← himports.seen_eq, seen, List.mem_map] at h
  obtain ⟨slot, hslot, rfl⟩ := h
  obtain ⟨identifier, hi⟩ := OrderedMap.mem_keys_iff.mp hslot
  obtain ⟨name, -, hname, -⟩ := himports.imported.definition hi
  exact ⟨slot, identifier, by rw [hname, lazyName_eq hname], hi⟩

/-- What is read back in the end. -/
theorem Imports.renames (hdescribes : graph.Describes definitions)
    (hrepresents : graph.Represents [root] [node]) {names : String → String}
    (hagrees : Agrees graph registry names) :
    Renames definitions node names ⟨result, registry.definitions⟩ where
  root := (List.cons.inj (himports.results names hagrees)).1
  identifiers := by
    have hvalid := himports.imported.valid
    rw [← himports.seen_eq, seen, hvalid.identifiers, OrderedMap.values, OrderedMap.keys,
      List.map_map, List.map_map]
    refine List.map_congr_left fun entry hentry => ?_
    have hi : registry.identifier? entry.1 = some entry.2 := OrderedMap.get?_eq_some_iff.mpr hentry
    obtain ⟨name, -, hname, -⟩ := himports.imported.definition hi
    rw [Function.comp_apply, Function.comp_apply, lazyName_eq hname, hagrees hname hi]
  bodies name hn := by
    obtain ⟨slot, identifier, hname, hi⟩ := himports.exists_slot hn
    obtain ⟨name', ⟨body', label⟩, hname', hd, rfl, hbody⟩ := himports.imported.definition hi
    cases hname.symm.trans hname'
    -- nothing is left as a placeholder
    rcases hbody with hpending | ⟨body, hbody, hrenamed⟩
    · exact absurd (himports.pending hpending) List.not_mem_nil
    · refine ⟨body, hbody, ?_⟩
      rw [hagrees hname hi, hd]
      exact congrArg (fun node => some (Definition.mk node (some name))) (hrenamed names hagrees)
  injective name hn other ho heq := by
    obtain ⟨slot, identifier, hname, hi⟩ := himports.exists_slot hn
    obtain ⟨slot', identifier', hname', hi'⟩ := himports.exists_slot ho
    rw [hagrees hname hi, hagrees hname' hi'] at heq
    subst heq
    cases himports.imported.valid.key_unique hi hi'
    exact Option.some.inj (hname.symm.trans hname')
  closed start hstart identifier hsteps := by
    obtain ⟨slot, hname⟩ := hdescribes.exists_name hrepresents hstart hsteps
    exact DefinitionMap.mem_referenceOrder_iff.mpr
      ⟨hdescribes.mem_keys hname, start, hstart, hsteps⟩

end

/-- A node whose references can be resolved comes back from its schema graph in normal form, with
the definitions that it leads to. They are renamed apart from each other, and not at all if every
one of them has the name of a type that is not reserved. -/
theorem toExtraction_ofNode {definitions : DefinitionMap} {node : Node} {root : SchemaId}
    (h : ofNode definitions node = .ok (graph, root)) :
    ∃ extraction names, graph.toExtraction root = .ok extraction ∧
      Renames definitions.normalize node.normalize names extraction ∧
      ((∀ identifier ∈ definitions.normalize.referenceOrder node.normalize,
          Identifier.isTypeName identifier = true ∧ identifier ∉ Registry.reservedNames) →
        ∀ identifier ∈ definitions.normalize.referenceOrder node.normalize,
          names identifier = identifier) := by
  obtain ⟨hdescribes, hrepresents⟩ := represents_ofNode h
  obtain ⟨result, registry, hread, himports⟩ := exists_toExtraction hdescribes hrepresents
  obtain ⟨names, hagrees⟩ := exists_agrees hdescribes registry
  refine ⟨_, names, hread, himports.renames hdescribes hrepresents hagrees, ?_⟩
  -- names that registries can give out are free when their lazies are met
  intro hproper name hn
  have hnames : ∀ slot name identifier, graph.name? slot = some name →
      registry.identifier? slot = some identifier → Proper name := by
    intro slot name identifier hname hi
    refine hproper name ?_
    rw [← himports.seen_eq, mem_seen_iff himports.imported hdescribes hname]
    exact ⟨identifier, hi⟩
  obtain ⟨slot, identifier, hname, hi⟩ := himports.exists_slot hn
  rw [hagrees hname hi]
  exact himports.imported.unchanged hnames slot name identifier hname hi

/-- Lists of lists without end, under a name that is no identifier. -/
def nestedLists : DefinitionMap :=
  .ofList [("nested list", ⟨.array (.reference "nested list" none), none⟩)]

def nestedListsGraph : SchemaGraph where
  schemas := #[.lazy 0, .array 0]
  lazies := #[⟨"nested list", some 1⟩]

def nestedListsExtraction : Extraction where
  root := .reference "NestedList" (some "nested list")
  definitions := .ofList [("NestedList",
    ⟨.array (.reference "NestedList" (some "nested list")), some "nested list"⟩)]

open SchemaDraft in
theorem ofNode_nestedLists :
    ofNode nestedLists (.reference "nested list" none) = .ok (nestedListsGraph, 0) := by
  -- the body is built while the definition is opened
  have hbody : (buildWithin nestedLists 0 (.array (.reference "nested list" none))).run.run
      (({} : SchemaDraft).enter "nested list") =
        (.ok 1,
          ⟨⟨#[.lazy 0, .array 0], #[⟨"nested list", none⟩]⟩, .ofList [("nested list", 0)]⟩) := by
    rw [buildWithin, buildWithin]
    rfl
  have hroot : (buildWithin nestedLists 1 (.reference "nested list" none)).run.run {} =
      (.ok 0, ⟨nestedListsGraph, .ofList [("nested list", 0)]⟩) := by
    rw [buildWithin]
    change (buildWithin nestedLists 0 (.array (.reference "nested list" none)) >>= _ :
      Build SchemaId).run.run (({} : SchemaDraft).enter "nested list") = _
    rw [ExceptT.run_bind, StateT.run_bind, hbody]
    rfl
  rw [ofNode, SchemaDraft.build, show nestedLists.size = 1 from rfl, hroot]
  rfl

theorem nestedLists_renames :
    ofNode nestedLists (.reference "nested list" none) = .ok (nestedListsGraph, 0) ∧
      nestedListsGraph.toExtraction 0 = .ok nestedListsExtraction ∧
      ∃ names, Renames nestedLists.normalize (.reference "nested list" none) names
        nestedListsExtraction := by
  have hread : nestedListsGraph.toExtraction 0 = .ok nestedListsExtraction := by rfl
  obtain ⟨extraction, names, hread', hrenames, -⟩ := toExtraction_ofNode ofNode_nestedLists
  cases hread.symm.trans hread'
  rw [Node.normalize] at hrenames
  exact ⟨ofNode_nestedLists, hread, names, hrenames⟩

end SchemaGraph

end TypeGraph
