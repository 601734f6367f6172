import TypeGraph.Proofs.JsonSchema.Meaning
import TypeGraph.Proofs.SchemaGraph.RoundTrip

/-!
# What a document means

The document that is written for a node validates exactly the values that belong to the node. What
is written for the node itself is so by its meaning; what the document adds is that no reference is
left open: there is an entry for each lazy that is referred to, under the name by which it is
referred to.

Main results:

* `SchemaGraph.lists_of_renderLazies`: the entries cover what they refer to.
* `SchemaGraph.validates_document_iff`: a document validates what belongs to its node.
-/

namespace TypeGraph

/-! ## Names of keywords -/

namespace JsonSchema

/-- No schema is written with entries of its own for definitions. -/
theorem get?_defs_toJson (schema : JsonSchema) (nameOf : LazyId → String) :
    Entries.get? "$defs" (schema.toJson nameOf) = none := by
  cases schema with
  | array items unique => cases unique <;> rfl
  | record names values => cases names <;> rfl
  | object properties required => cases required <;> rfl
  | _ => rfl

end JsonSchema

namespace SchemaGraph

open JsonSchema

variable {graph : SchemaGraph} {definitions : DefinitionMap} {unseen pending : List LazyId}
  {entries : List (LazyId × JsonSchema)}

/-- The entries have the unseen among the pending lazies and those that they refer to, once each,
with the renderings of their targets. -/
structure Lists (graph : SchemaGraph) (unseen pending : List LazyId)
    (entries : List (LazyId × JsonSchema)) : Prop where
  fresh : ∀ slot ∈ entries.map Prod.fst, slot ∈ unseen
  distinct : (entries.map Prod.fst).Nodup
  covers : ∀ slot ∈ pending, slot ∈ unseen → slot ∈ entries.map Prod.fst
  closed : ∀ entry ∈ entries, ∀ slot ∈ entry.2.references, slot ∈ unseen →
      slot ∈ entries.map Prod.fst
  rendered : ∀ entry ∈ entries, ∃ target, graph.lazyTarget entry.1 = .ok target ∧
    graph.render target = .ok entry.2

theorem lists_of_renderLazies (hdistinct : unseen.Nodup)
    (h : graph.renderLazies unseen pending = .ok entries) : graph.Lists unseen pending entries := by
  induction unseen, pending using renderLazies.induct generalizing entries with
  | case1 unseen =>
    rw [renderLazies] at h
    cases h
    exact ⟨by simp, .nil, by simp, by simp, by simp⟩
  | case2 unseen slot pending hmem hlt ih =>
    rw [renderLazies, dif_pos hmem] at h
    obtain ⟨target, htarget, h⟩ := exists_of_bind_eq_ok h
    obtain ⟨schema, hschema, h⟩ := exists_of_bind_eq_ok h
    obtain ⟨rest, hrest, h⟩ := exists_of_bind_eq_ok h
    cases h
    have hlists := ih schema (hdistinct.erase slot) hrest
    -- what is not the lazy in hand is still unseen behind it
    have hlisted : ∀ other ∈ pending ++ schema.references, other ∈ unseen →
        other ∈ slot :: rest.map Prod.fst := by
      intro other ho hunseen
      by_cases heq : other = slot
      · exact heq ▸ List.mem_cons_self
      · exact List.mem_cons_of_mem _
          (hlists.covers other ho ((List.mem_erase_of_ne heq).mpr hunseen))
    refine ⟨?_, ?_, ?_, ?_, ?_⟩
    · rintro other (_ | ⟨_, ho⟩)
      · exact hmem
      · exact List.mem_of_mem_erase (hlists.fresh other ho)
    · refine List.nodup_cons.mpr ⟨fun hin => ?_, hlists.distinct⟩
      exact (hdistinct.mem_erase_iff.mp (hlists.fresh slot hin)).1 rfl
    · intro other ho hunseen
      rcases List.mem_cons.mp ho with rfl | ho
      · exact List.mem_cons_self
      · exact hlisted other (List.mem_append_left _ ho) hunseen
    · intro entry he other ho hunseen
      rcases List.mem_cons.mp he with rfl | he
      · exact hlisted other (List.mem_append_right _ ho) hunseen
      · by_cases heq : other = slot
        · exact heq ▸ List.mem_cons_self
        · exact List.mem_cons_of_mem _
            (hlists.closed entry he other ho ((List.mem_erase_of_ne heq).mpr hunseen))
    · intro entry he
      rcases List.mem_cons.mp he with rfl | he
      · exact ⟨target, eq_ok_of_orHalt htarget, hschema⟩
      · exact hlists.rendered entry he
  | case3 unseen slot pending hmem ih =>
    rw [renderLazies, dif_neg hmem] at h
    have hlists := ih hdistinct h
    refine { hlists with covers := ?_ }
    intro other ho hunseen
    rcases List.mem_cons.mp ho with rfl | ho
    · exact absurd hunseen hmem
    · exact hlists.covers other ho hunseen

/-! ## Documents -/

/-- The definitions of a document, by the names of their lazies. -/
def writtenDefinitions (graph : SchemaGraph) (entries : List (LazyId × JsonSchema)) :
    List (String × Json) :=
  entries.map fun entry => (graph.lazyName entry.1, .object (entry.2.toJson graph.lazyName))

theorem map_fst_writtenDefinitions (graph : SchemaGraph) (entries : List (LazyId × JsonSchema)) :
    (graph.writtenDefinitions entries).map Prod.fst =
      (entries.map Prod.fst).map graph.lazyName := by
  rw [writtenDefinitions, List.map_map, List.map_map]
  rfl

/-- Lazies of a graph that describes definitions have names of their own. -/
theorem nodup_writtenDefinitions (hdescribes : graph.Describes definitions)
    (hlists : graph.Lists (List.range graph.lazies.size) pending entries) :
    ((graph.writtenDefinitions entries).map Prod.fst).Nodup := by
  have hname : ∀ slot ∈ entries.map Prod.fst, graph.name? slot = some (graph.lazyName slot) := by
    intro slot hs
    have hbound := name?_isSome_iff.mpr (List.mem_range.mp (hlists.fresh slot hs))
    obtain ⟨name, hname⟩ := Option.isSome_iff_exists.mp hbound
    rw [lazyName_eq hname, hname]
  rw [map_fst_writtenDefinitions]
  refine hlists.distinct.map_on fun slot hs other ho heq => ?_
  exact hdescribes.unique (hname slot hs) (heq ▸ hname other ho)

/-- The entry for definitions, which is left out if there are none. -/
def definitionsEntry (definitions : List (String × Json)) : List (String × Json) :=
  if definitions.isEmpty then [] else [("$defs", .object definitions)]

theorem exists_of_document {root : SchemaId} {document : Json}
    (h : graph.document root = .ok document) :
    ∃ schema entries, graph.render root = .ok schema ∧
      graph.renderLazies (List.range graph.lazies.size) schema.references = .ok entries ∧
      document = .object ([("$schema", .string vocabulary)] ++ schema.toJson graph.lazyName ++
        definitionsEntry (Entries.ofList (graph.writtenDefinitions entries))) := by
  obtain ⟨schema, hschema, h⟩ := exists_of_bind_eq_ok h
  obtain ⟨entries, hentries, h⟩ := exists_of_bind_eq_ok h
  cases h
  exact ⟨schema, entries, hschema, hentries, rfl⟩

/-- The `$defs` of a document has its definitions. -/
theorem get?_defs {schema : JsonSchema} {nameOf : LazyId → String} {dialect : Json}
    {definitions : List (String × Json)} (h : definitions ≠ []) :
    Entries.get? "$defs" ([("$schema", dialect)] ++ schema.toJson nameOf ++
      definitionsEntry definitions) = some (.object definitions) := by
  rw [Entries.get?_append, Entries.get?_append, get?_defs_toJson, definitionsEntry, if_neg]
  · rfl
  · exact mt List.isEmpty_iff.mp h

/-- A lazy is listed if it is in the graph at all. -/
def Listed (graph : SchemaGraph) (entries : List (LazyId × JsonSchema)) (slot : LazyId) : Prop :=
  slot ∈ List.range graph.lazies.size → slot ∈ entries.map Prod.fst

/-- A document has, for a listed lazy, what is written for its target. -/
theorem exists_definition (hlists : graph.Lists (List.range graph.lazies.size) pending entries)
    (hnodup : ((graph.writtenDefinitions entries).map Prod.fst).Nodup) {document : Json}
    (hdefs : graph.writtenDefinitions entries ≠ [] →
      Entries.get? "$defs" document.entries = some (.object (graph.writtenDefinitions entries)))
    {slot : LazyId} (hlisted : graph.Listed entries slot) {target : SchemaId} {body : Node}
    (htarget : graph.target? slot = some target) (hrepresents : graph.Represents [target] [body]) :
    ∃ schema, graph.Written (graph.Listed entries) schema body ∧
      document.definition? (pointer (graph.lazyName slot)) =
        some (.object (schema.toJson graph.lazyName)) := by
  have hbound : slot < graph.lazies.size := by
    obtain ⟨lazy, hlazy, -⟩ := Option.bind_eq_some_iff.mp htarget
    exact (Array.getElem?_eq_some_iff.mp hlazy).1
  obtain ⟨⟨_, schema⟩, hentry, rfl⟩ := List.mem_map.mp (hlisted (List.mem_range.mpr hbound))
  obtain ⟨target', htarget', hrendered⟩ := hlists.rendered _ hentry
  cases (lazyTarget_eq htarget).symm.trans htarget'
  refine ⟨schema, ⟨target, _, hrepresents, hrendered, hlists.closed _ hentry⟩, ?_⟩
  have hdefinition := List.mem_map_of_mem (f := fun entry : LazyId × JsonSchema =>
    (graph.lazyName entry.1, Json.object (entry.2.toJson graph.lazyName))) hentry
  rw [Json.definition?_pointer (hdefs (List.ne_nil_of_mem hdefinition)),
    Entries.get?_eq_some_iff hnodup]
  exact hdefinition

/-- The entries around a written schema are no keywords. -/
theorem validates_around {schema : JsonSchema} {nameOf : LazyId → String} {dialect value : Json}
    {definitions : List (String × Json)} {document whole : Json}
    (h : whole = .object ([("$schema", dialect)] ++ schema.toJson nameOf ++
      definitionsEntry definitions)) :
    document.Validates value whole ↔ document.Validates value (.object (schema.toJson nameOf)) := by
  rw [h, Json.validates_iff, Json.validates_iff]
  refine Json.checks_around ?_ ?_
  · intro entry he
    rw [List.mem_singleton.mp he]
    rfl
  · intro entry he
    rw [definitionsEntry] at he
    split at he
    · exact absurd he List.not_mem_nil
    · rw [List.mem_singleton.mp he]
      rfl

/-- A document has the schema that is written for its node, between entries that say nothing, and is
written level by level below it. -/
theorem exists_written_of_document {node : Node} {root : SchemaId}
    (h : ofNode definitions node = .ok (graph, root)) {document : Json}
    (hdocument : graph.document root = .ok document) :
    ∃ schema entries, document = .object ([("$schema", .string vocabulary)] ++
        schema.toJson graph.lazyName ++ definitionsEntry (graph.writtenDefinitions entries)) ∧
      graph.Written (graph.Listed entries) schema node.normalize ∧
      ∀ schema node, graph.Written (graph.Listed entries) schema node →
        Writes definitions.normalize document graph.lazyName (graph.Written (graph.Listed entries))
          schema node := by
  obtain ⟨hdescribes, hrepresents⟩ := represents_ofNode h
  obtain ⟨schema, entries, hschema, hentries, hdocument⟩ := exists_of_document hdocument
  have hlists := lists_of_renderLazies List.nodup_range hentries
  have hnodup := nodup_writtenDefinitions hdescribes hlists
  rw [Entries.ofList_eq_self hnodup] at hdocument
  -- the names of the lazies are distinct here, so no definition replaces another
  have hdefs : graph.writtenDefinitions entries ≠ [] →
      Entries.get? "$defs" document.entries =
        some (.object (graph.writtenDefinitions entries)) := by
    intro hsome
    rw [hdocument]
    exact get?_defs hsome
  refine ⟨schema, entries, hdocument, ⟨root, _, hrepresents, hschema, hlists.covers⟩, ?_⟩
  exact fun _ _ hpart => hpart.writes hdescribes fun _ hlisted _ _ htarget hrepresents =>
    exists_definition hlists hnodup hdefs hlisted htarget hrepresents

/-- A document validates exactly the values that belong to the node that it was written for. -/
theorem validates_document_iff {node : Node} {root : SchemaId}
    (h : ofNode definitions node = .ok (graph, root)) {document : Json}
    (hdocument : graph.document root = .ok document) (value : Json) :
    document.Validates value document ↔ definitions.Belongs value node := by
  obtain ⟨schema, entries, hdocument, hwritten, hwrites⟩ := exists_written_of_document h hdocument
  calc document.Validates value document
      ↔ document.Validates value (.object (schema.toJson graph.lazyName)) :=
        validates_around hdocument
    _ ↔ definitions.normalize.Belongs value node.normalize := validates_iff_belongs hwrites hwritten
    _ ↔ definitions.Belongs value node := DefinitionMap.belongs_normalize

def nestedListsDocument : Json :=
  .object [("$schema", .string vocabulary), ("$ref", .string "#/$defs/nested list"),
    ("$defs", .object [("nested list", .object [("type", .string "array"),
      ("items", .object [("$ref", .string "#/$defs/nested list")])])])]

theorem document_nestedLists : nestedListsGraph.document 0 = .ok nestedListsDocument := by
  have hrest : nestedListsGraph.renderLazies [] [0] = .ok [] := by
    rw [renderLazies, dif_neg List.not_mem_nil, renderLazies]
    rfl
  have hentries : nestedListsGraph.renderLazies [0] [0] = .ok [(0, .array (.ref 0) false)] := by
    rw [renderLazies, dif_pos List.mem_cons_self]
    show (nestedListsGraph.renderLazies [] [0] >>= _) = _
    rw [hrest]
    rfl
  show (nestedListsGraph.renderLazies [0] [0] >>= _) = _
  rw [hentries]
  rfl

theorem belongs_nestedLists {value : Json} {displayName : Option String} :
    nestedLists.Belongs value (.reference "nested list" displayName) ↔
      ∃ elements, value = .array elements ∧
        ∀ element ∈ elements, nestedLists.Belongs element (.reference "nested list" none) := by
  rw [DefinitionMap.belongs_iff]
  constructor
  · rintro ⟨_, hbody, hbelongs⟩
    cases hbody
    exact DefinitionMap.belongs_iff.mp hbelongs
  · exact fun h => ⟨_, rfl, DefinitionMap.belongs_iff.mpr h⟩

theorem nestedLists_validates :
    ofNode nestedLists (.reference "nested list" none) = .ok (nestedListsGraph, 0) ∧
      nestedListsGraph.document 0 = .ok nestedListsDocument ∧
      nestedListsDocument.Validates (.array [.array []]) nestedListsDocument ∧
      ¬ nestedListsDocument.Validates (.array [.null]) nestedListsDocument := by
  have hmeaning := validates_document_iff ofNode_nestedLists document_nestedLists
  refine ⟨ofNode_nestedLists, document_nestedLists, (hmeaning _).mpr ?_, mt (hmeaning _).mp ?_⟩
  · refine belongs_nestedLists.mpr ⟨_, rfl, fun element he => ?_⟩
    rw [List.mem_singleton.mp he]
    exact belongs_nestedLists.mpr ⟨_, rfl, fun _ h => absurd h List.not_mem_nil⟩
  · intro h
    obtain ⟨_, hvalue, helements⟩ := belongs_nestedLists.mp h
    cases hvalue
    obtain ⟨_, hnull, -⟩ := belongs_nestedLists.mp (helements .null List.mem_cons_self)
    cases hnull

end SchemaGraph

end TypeGraph
