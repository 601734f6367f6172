import TypeGraph.Proofs.JsonSchema.Documents
import TypeGraph.Proofs.JsonSchema.Rendering
import TypeGraph.Proofs.SchemaGraph.Collects

/-!
# Where references lead

A document is written for the schemas of any graph, also of one that was built by hand, whose lazies
may have any names: all that is asked is that schemas are made of earlier ones and of lazies of the
graph. Each lazy that is referred to, from the root or from the target of another, is rendered once.
But its definition goes by its name: where two of these lazies have one name, the later definition
replaces the earlier one, and references to the one lead to the rendering of the other.

Main results:

* `JsonSchema.refersTo_toJson`: the references in the written form of a schema.
* `SchemaGraph.Gathers`: the lazies for which definitions are written.
* `SchemaGraph.document_references`: where the references of a document lead, and when that is right
  for all.
* `SchemaGraph.sharedName_replaced`: two lazies of one name.
-/

namespace TypeGraph

namespace Json

/-! ## References in a schema -/

/-- The schemas that stand in the argument of a keyword. -/
def subschemas (argument : Json) : String → List Json
  -- what stands under `const` or `required` is no schema, whatever it looks like
  | "items" | "additionalProperties" | "propertyNames" | "not" => [argument]
  | "prefixItems" | "anyOf" | "allOf" => argument.elements
  | "properties" | "$defs" => argument.entries.map Prod.snd
  | _ => []

/-- A `$ref` with the text stands in the schema, or in one of the schemas that stand in it. -/
inductive RefersTo : Json → String → Prop where
  | here {keywords : List (String × Json)} {text : String}
      (mem : ("$ref", string text) ∈ keywords) :
      RefersTo (object keywords) text
  | inside {keywords : List (String × Json)} {entry : String × Json} {part : Json} {text : String}
      (mem : entry ∈ keywords) (part_mem : part ∈ subschemas entry.2 entry.1)
      (refers : RefersTo part text) :
      RefersTo (object keywords) text

/-- An entry of a schema refers to the text. -/
def EntryRefersTo (entry : String × Json) (text : String) : Prop :=
  entry = ("$ref", string text) ∨ ∃ part ∈ subschemas entry.2 entry.1, part.RefersTo text

theorem refersTo_iff {keywords : List (String × Json)} {text : String} :
    (object keywords).RefersTo text ↔ ∃ entry ∈ keywords, EntryRefersTo entry text := by
  constructor
  · intro h
    cases h with
    | here mem => exact ⟨_, mem, .inl rfl⟩
    | inside mem part_mem refers => exact ⟨_, mem, .inr ⟨_, part_mem, refers⟩⟩
  · rintro ⟨entry, hentry, rfl | ⟨part, hpart, hrefers⟩⟩
    · exact .here hentry
    · exact .inside hentry hpart hrefers

theorem not_refersTo_bool {flag : Bool} {text : String} : ¬ (bool flag).RefersTo text := by
  intro h
  cases h

end Json

namespace JsonSchema

open Json

variable {nameOf : LazyId → String} {text : String}

/-- One of several schemas refers to what they refer to together. -/
theorem exists_refersTo_iff {members : List JsonSchema}
    (h : ∀ member ∈ members, (Json.object (member.toJson nameOf)).RefersTo text ↔
      ∃ slot ∈ member.references, text = pointer (nameOf slot)) :
    (∃ part ∈ members.map fun member => Json.object (member.toJson nameOf), part.RefersTo text) ↔
      ∃ slot ∈ members.flatMap references, text = pointer (nameOf slot) := by
  constructor
  · rintro ⟨part, hpart, hrefers⟩
    obtain ⟨member, hm, rfl⟩ := List.mem_map.mp hpart
    obtain ⟨slot, hslot, htext⟩ := (h member hm).mp hrefers
    exact ⟨slot, List.mem_flatMap.mpr ⟨member, hm, hslot⟩, htext⟩
  · rintro ⟨slot, hslot, htext⟩
    obtain ⟨member, hm, hslot⟩ := List.mem_flatMap.mp hslot
    exact ⟨_, List.mem_map_of_mem hm, (h member hm).mpr ⟨slot, hslot, htext⟩⟩

/-- The references in the written form of a schema are the pointers to the names of its lazies. -/
theorem refersTo_toJson (schema : JsonSchema) : (Json.object (schema.toJson nameOf)).RefersTo text ↔
    ∃ slot ∈ schema.references, text = pointer (nameOf slot) := by
  rw [refersTo_iff]
  cases schema with
  | anything | nothing | type name | const value =>
    simp [toJson, references, EntryRefersTo, subschemas, refersTo_iff]
  | array items unique =>
    have hitems := refersTo_toJson items
    cases unique <;> simp [toJson, references, EntryRefersTo, subschemas, hitems]
  | record names values =>
    have hvalues := refersTo_toJson values
    cases names with
    | none =>
      simp [toJson, namesToJson, references, referencesInOption, EntryRefersTo, subschemas, hvalues]
    | some names =>
      have hnames := refersTo_toJson names
      simp [toJson, namesToJson, references, referencesInOption, EntryRefersTo, subschemas, hvalues,
        hnames, or_and_right, exists_or]
  | object properties required =>
    have hproperties :
        ∀ member ∈ properties.map Prod.snd, (Json.object (member.toJson nameOf)).RefersTo text ↔
        ∃ slot ∈ member.references, text = pointer (nameOf slot) := by
      rw [List.forall_mem_map]
      intro property hp
      -- a schema in a pair is smaller than the list of the pairs
      have hsmaller := sizeOf_snd_lt_of_mem hp
      exact refersTo_toJson property.2
    have hparts := exists_refersTo_iff hproperties
    rw [List.map_map, List.flatMap_map] at hparts
    cases required <;>
      simpa [toJson, references, EntryRefersTo, subschemas, propertiesToJson_eq,
        referencesInProperties_eq]
        using hparts
  | tuple items least =>
    have hparts := exists_refersTo_iff fun item (_ : item ∈ items) => refersTo_toJson item
    simpa [toJson, references, EntryRefersTo, subschemas, allToJson_eq, referencesInAll_eq, ofNat,
      not_refersTo_bool] using hparts
  | anyOf members | allOf members =>
    have hparts := exists_refersTo_iff fun member (_ : member ∈ members) => refersTo_toJson member
    simpa [toJson, references, EntryRefersTo, subschemas, allToJson_eq,
      referencesInAll_eq] using hparts
  | ref slot => simp [toJson, references, EntryRefersTo, subschemas, eq_comm]
  termination_by sizeOf schema

end JsonSchema

namespace SchemaGraph

open JsonSchema

variable {graph : SchemaGraph} {root : SchemaId} {slot : LazyId} {schema : JsonSchema}
  {entries : List (LazyId × JsonSchema)} {document : Json} {text : String}

/-! ## What a document is made of -/

/-- The rendering of the root refers to the lazy, or that of the target of a lazy does that is
referred to. -/
inductive Refers (graph : SchemaGraph) (root : SchemaId) : LazyId → Prop where
  | direct {slot : LazyId} {schema : JsonSchema} (rendered : graph.render root = .ok schema)
      (mem : slot ∈ schema.references) : Refers graph root slot
  | through {slot other : LazyId} {target : SchemaId} {schema : JsonSchema}
      (refers : Refers graph root slot)
      (filled : graph.lazyTarget slot = .ok target) (rendered : graph.render target = .ok schema)
      (mem : other ∈ schema.references) : Refers graph root other

/-- The value is what is written for the target of the lazy. -/
def Renders (graph : SchemaGraph) (slot : LazyId) (json : Json) : Prop :=
  ∃ target schema, graph.lazyTarget slot = .ok target ∧ graph.render target = .ok schema ∧
    json = .object (schema.toJson graph.lazyName)

theorem Refers.lt (hslots : ∀ id slot, graph.get id = .lazy slot → slot < graph.lazies.size)
    (h : graph.Refers root slot) : slot < graph.lazies.size := by
  cases h with
  | direct rendered mem | through _ _ rendered mem =>
    obtain ⟨place, hplace⟩ := exists_get_of_mem_references rendered mem
    exact hslots place slot hplace

/-- What is written for a lazy that is referred to refers to such lazies only. -/
theorem Refers.of_renders {json : Json} (h : graph.Refers root slot)
    (hrenders : graph.Renders slot json) (htext : json.RefersTo text) :
    ∃ other, graph.Refers root other ∧ text = pointer (graph.lazyName other) := by
  obtain ⟨target, schema, hfilled, hrendered, rfl⟩ := hrenders
  obtain ⟨other, hother, htext⟩ := (refersTo_toJson schema).mp htext
  exact ⟨other, h.through hfilled hrendered hother, htext⟩

/-- Only what is referred to is listed. -/
theorem refers_of_renderLazies {unseen pending : List LazyId}
    (h : graph.renderLazies unseen pending = .ok entries)
    (hpending : ∀ slot ∈ pending, graph.Refers root slot) :
    ∀ slot ∈ entries.map Prod.fst, graph.Refers root slot := by
  induction unseen, pending using renderLazies.induct generalizing entries with
  | case1 unseen =>
    rw [renderLazies] at h
    cases h
    simp
  | case2 unseen slot pending hmem hlt ih =>
    rw [renderLazies, dif_pos hmem] at h
    obtain ⟨target, htarget, h⟩ := exists_of_bind_eq_ok h
    obtain ⟨schema, hschema, h⟩ := exists_of_bind_eq_ok h
    obtain ⟨rest, hrest, h⟩ := exists_of_bind_eq_ok h
    cases h
    have hslot := hpending slot List.mem_cons_self
    rw [List.map_cons, List.forall_mem_cons]
    refine ⟨hslot, ih schema hrest fun other ho => ?_⟩
    -- what is pending then was pending before, or the lazy in hand leads to it
    rcases List.mem_append.mp ho with ho | ho
    · exact hpending other (List.mem_cons_of_mem _ ho)
    · exact .through hslot (eq_ok_of_orHalt htarget) hschema ho
  | case3 unseen slot pending hmem ih =>
    rw [renderLazies, dif_neg hmem] at h
    exact ih h (List.forall_mem_cons.mp hpending).2

/-- The entries are those of the lazies that are referred to, once each, with the renderings of
their targets. -/
structure Gathers (graph : SchemaGraph) (root : SchemaId)
    (entries : List (LazyId × JsonSchema)) : Prop where
  distinct : (entries.map Prod.fst).Nodup
  mem_iff : ∀ slot, slot ∈ entries.map Prod.fst ↔ graph.Refers root slot
  renders : ∀ entry ∈ entries, graph.Renders entry.1 (.object (entry.2.toJson graph.lazyName))

theorem gathers_of_renderLazies
    (hslots : ∀ id slot, graph.get id = .lazy slot → slot < graph.lazies.size)
    (hschema : graph.render root = .ok schema)
    (h : graph.renderLazies (List.range graph.lazies.size) schema.references = .ok entries) :
    graph.Gathers root entries := by
  have hlists := lists_of_renderLazies List.nodup_range h
  refine ⟨hlists.distinct, fun slot => ⟨?_, fun hrefers => ?_⟩, ?_⟩
  · exact refers_of_renderLazies h (fun other ho => .direct hschema ho) slot
  · -- from the root on, what is referred to is unseen or listed
    have hrange := List.mem_range.mpr (hrefers.lt hslots)
    induction hrefers with
    | direct rendered mem =>
      cases hschema.symm.trans rendered
      exact hlists.covers _ mem hrange
    | through refers filled rendered mem ih =>
      obtain ⟨entry, hentry, rfl⟩ := List.mem_map.mp (ih (List.mem_range.mpr (refers.lt hslots)))
      obtain ⟨target, htarget, hrendered⟩ := hlists.rendered entry hentry
      cases filled.symm.trans htarget
      cases rendered.symm.trans hrendered
      exact hlists.closed entry hentry _ mem hrange
  · intro entry hentry
    obtain ⟨target, htarget, hrendered⟩ := hlists.rendered entry hentry
    exact ⟨target, entry.2, htarget, hrendered, rfl⟩

/-! ## Definitions -/

theorem refersTo_document {definitions : List (String × Json)}
    (h : (Json.object ([("$schema", .string vocabulary)] ++ schema.toJson graph.lazyName ++
      definitionsEntry definitions)).RefersTo text) :
    (Json.object (schema.toJson graph.lazyName)).RefersTo text ∨
      ∃ definition ∈ definitions, definition.2.RefersTo text := by
  obtain ⟨entry, hentry, hrefers⟩ := Json.refersTo_iff.mp h
  rcases List.mem_append.mp hentry with hentry | hentry
  · rcases List.mem_append.mp hentry with hentry | hentry
    · -- the vocabulary is no schema
      rw [List.mem_singleton.mp hentry] at hrefers
      rcases hrefers with heq | ⟨part, hpart, -⟩
      · exact absurd (congrArg Prod.fst heq) (show "$schema" ≠ "$ref" by decide)
      · cases hpart
    · exact .inl (Json.refersTo_iff.mpr ⟨entry, hentry, hrefers⟩)
  · unfold definitionsEntry at hentry
    split at hentry
    · cases hentry
    · rw [List.mem_singleton.mp hentry] at hrefers
      rcases hrefers with heq | ⟨part, hpart, hrefers⟩
      · exact absurd (congrArg Prod.fst heq) (show "$defs" ≠ "$ref" by decide)
      · obtain ⟨definition, hd, rfl⟩ := List.mem_map.mp hpart
        exact .inr ⟨definition, hd, hrefers⟩

theorem definitions_of_document {definitions : List (String × Json)}
    (h : document = .object ([("$schema", .string vocabulary)] ++ schema.toJson graph.lazyName ++
      definitionsEntry definitions)) : document.definitions = definitions := by
  rw [h, Json.definitions, Json.entries_object]
  by_cases hempty : definitions = []
  · rw [hempty, Entries.get?_append, Entries.get?_append, get?_defs_toJson]
    rfl
  · rw [get?_defs hempty]
    rfl

section

variable (h : graph.Gathers root entries)

include h

/-- A definition is what is written for a lazy that is referred to and has its name. -/
theorem Gathers.exists_of_mem {name : String} {json : Json}
    (hmem : (name, json) ∈ graph.writtenDefinitions entries) :
    ∃ slot, graph.Refers root slot ∧ graph.lazyName slot = name ∧ graph.Renders slot json := by
  obtain ⟨entry, hentry, heq⟩ := List.mem_map.mp hmem
  cases heq
  exact ⟨entry.1, (h.mem_iff _).mp (List.mem_map_of_mem hentry), rfl, h.renders entry hentry⟩

theorem Gathers.mem_names_iff {name : String} :
    name ∈ (graph.writtenDefinitions entries).map Prod.fst ↔
    ∃ slot, graph.Refers root slot ∧ graph.lazyName slot = name := by
  constructor
  · intro hname
    obtain ⟨⟨_, json⟩, hmem, rfl⟩ := List.mem_map.mp hname
    obtain ⟨slot, hrefers, heq, -⟩ := h.exists_of_mem hmem
    exact ⟨slot, hrefers, heq⟩
  · rintro ⟨slot, hrefers, rfl⟩
    obtain ⟨entry, hentry, rfl⟩ := List.mem_map.mp ((h.mem_iff slot).mpr hrefers)
    exact List.mem_map_of_mem (List.mem_map_of_mem hentry)

/-- A pointer to the name of a lazy leads to what is written for one of that name. -/
theorem Gathers.exists_definition (hdefinitions : document.definitions =
      Entries.ofList (graph.writtenDefinitions entries)) (hrefers : graph.Refers root slot) :
    ∃ json, document.definition? (pointer (graph.lazyName slot)) = some json ∧
      ∃ namesake, graph.Refers root namesake ∧ graph.lazyName namesake = graph.lazyName slot ∧
        graph.Renders namesake json := by
  rw [Json.definition?_eq, hdefinitions]
  cases hget : Entries.get? (graph.lazyName slot)
    (Entries.ofList (graph.writtenDefinitions entries)) with
  | none =>
    rw [Entries.get?_eq_none_iff, Entries.mem_keys_ofList, h.mem_names_iff] at hget
    exact absurd ⟨slot, hrefers, rfl⟩ hget
  | some json => exact ⟨json, rfl, h.exists_of_mem (Entries.mem_ofList (Entries.mem_of_get? hget))⟩

theorem Gathers.nodup_iff : ((graph.writtenDefinitions entries).map Prod.fst).Nodup ↔
    Set.InjOn graph.lazyName {slot | graph.Refers root slot} := by
  rw [map_fst_writtenDefinitions, List.nodup_map_iff_inj_on h.distinct]
  simp only [h.mem_iff]
  rfl

end

/-- Each lazy that is referred to has its own definition, to which the references to it lead, and
there are no other definitions. -/
structure DefinesEach (graph : SchemaGraph) (root : SchemaId) (document : Json) : Prop where
  leads : ∀ slot, graph.Refers root slot →
    ∃ json, document.definition? (pointer (graph.lazyName slot)) = some json ∧
      graph.Renders slot json
  lists : ∃ slots : List LazyId, slots.Nodup ∧ (∀ slot, slot ∈ slots ↔ graph.Refers root slot) ∧
    List.Forall₂
      (fun slot definition => graph.lazyName slot = definition.1 ∧ graph.Renders slot definition.2)
      slots document.definitions

/-- Definitions of different names are of different lazies. -/
theorem DefinesEach.injOn (h : graph.DefinesEach root document)
    (hnodup : (document.definitions.map Prod.fst).Nodup) :
    Set.InjOn graph.lazyName {slot | graph.Refers root slot} := by
  obtain ⟨slots, hslots, hmem, hdefinitions⟩ := h.lists
  have hnames := map_eq_of_forall₂ (hdefinitions.imp fun _ _ hdefinition => hdefinition.1.symm)
  rw [hnames, List.nodup_map_iff_inj_on hslots] at hnodup
  simp only [hmem] at hnodup
  exact hnodup

/-- With different names, each lazy has its own definition. -/
theorem Gathers.definesEach (h : graph.Gathers root entries)
    (hnodup : ((graph.writtenDefinitions entries).map Prod.fst).Nodup)
    (hdefinitions : document.definitions = graph.writtenDefinitions entries) :
    graph.DefinesEach root document := by
  refine ⟨fun slot hrefers => ?_, entries.map Prod.fst, h.distinct, h.mem_iff, ?_⟩
  · obtain ⟨entry, hentry, rfl⟩ := List.mem_map.mp ((h.mem_iff slot).mpr hrefers)
    refine ⟨_, ?_, h.renders entry hentry⟩
    rw [Json.definition?_eq, hdefinitions, Entries.get?_eq_some_iff hnodup]
    exact List.mem_map_of_mem (f := fun entry : LazyId × JsonSchema =>
      (graph.lazyName entry.1, Json.object (entry.2.toJson graph.lazyName))) hentry
  · rw [hdefinitions]
    exact forall₂_map_map fun entry hentry => ⟨rfl, h.renders entry hentry⟩

/-- Writing a document ends. Its definitions have the names of the lazies that are referred to, once
each; each of its references is the pointer to the name of such a lazy, and leads to the rendering
of one of that name. It is the rendering of that very lazy, for all of them, and each has a
definition, if and only if they have different names. -/
theorem document_references (hbelow : ∀ id, ∀ child ∈ (graph.get id).children, child < id)
    (hslots : ∀ id slot, graph.get id = .lazy slot → slot < graph.lazies.size) (root : SchemaId) :
    graph.document root ≠ .error .endless ∧
    ∀ document, graph.document root = .ok document →
      (document.definitions.map Prod.fst).Nodup ∧
      (∀ name, name ∈ document.definitions.map Prod.fst ↔
        ∃ slot, graph.Refers root slot ∧ graph.lazyName slot = name) ∧
      (∀ text, document.RefersTo text → ∃ slot, graph.Refers root slot ∧
        text = pointer (graph.lazyName slot) ∧
        ∃ json, document.definition? text = some json ∧ ∃ namesake, graph.Refers root namesake ∧
          graph.lazyName namesake = graph.lazyName slot ∧ graph.Renders namesake json) ∧
      (graph.DefinesEach root document ↔
        Set.InjOn graph.lazyName {slot | graph.Refers root slot}) := by
  refine ⟨document_ne_endless hbelow root, fun document hdocument => ?_⟩
  obtain ⟨schema, entries, hschema, hentries, hwritten⟩ := exists_of_document hdocument
  have hgathers := gathers_of_renderLazies hslots hschema hentries
  have hdefinitions := definitions_of_document hwritten
  have hnodup : (document.definitions.map Prod.fst).Nodup := by
    rw [hdefinitions]
    exact Entries.nodup_ofList _
  have hnames (name : String) : name ∈ document.definitions.map Prod.fst ↔
      ∃ slot, graph.Refers root slot ∧ graph.lazyName slot = name := by
    rw [hdefinitions, Entries.mem_keys_ofList, hgathers.mem_names_iff]
  refine ⟨hnodup, hnames, fun text htext => ?_, fun heach => heach.injOn hnodup,
    fun hdistinct => ?_⟩
  · -- the reference stands in the root or in a definition
    have hslot : ∃ slot, graph.Refers root slot ∧ text = pointer (graph.lazyName slot) := by
      rw [hwritten] at htext
      rcases refersTo_document htext with htext | ⟨definition, hmem, htext⟩
      · obtain ⟨slot, hslot, htext⟩ := (refersTo_toJson schema).mp htext
        exact ⟨slot, .direct hschema hslot, htext⟩
      · obtain ⟨slot, hrefers, -, hrenders⟩ := hgathers.exists_of_mem (Entries.mem_ofList hmem)
        exact hrefers.of_renders hrenders htext
    obtain ⟨slot, hrefers, rfl⟩ := hslot
    exact ⟨slot, hrefers, rfl, hgathers.exists_definition hdefinitions hrefers⟩
  · -- nothing is replaced where all names are different
    have hdistinct := hgathers.nodup_iff.mpr hdistinct
    rw [Entries.ofList_eq_self hdistinct] at hdefinitions
    exact hgathers.definesEach hdistinct hdefinitions

/-! ## Names that are written alike, and a name that is shared -/

section

variable {unseen pending : List LazyId}

theorem renderLazies_nil (unseen : List LazyId) : graph.renderLazies unseen [] = .ok [] := by
  rw [renderLazies]
  rfl

theorem renderLazies_seen (h : slot ∉ unseen) :
    graph.renderLazies unseen (slot :: pending) = graph.renderLazies unseen pending := by
  rw [renderLazies, dif_neg h]

theorem renderLazies_unseen {target : SchemaId} (h : slot ∈ unseen)
    (hfilled : graph.lazyTarget slot = .ok target) (hrendered : graph.render target = .ok schema)
    (hrest : graph.renderLazies (unseen.erase slot) (pending ++ schema.references) = .ok entries) :
    graph.renderLazies unseen (slot :: pending) = .ok ((slot, schema) :: entries) := by
  rw [renderLazies, dif_pos h, hfilled]
  show (graph.render target >>= _) = _
  rw [hrendered]
  show (graph.renderLazies (unseen.erase slot) (pending ++ schema.references) >>= _) = _
  rw [hrest]
  rfl

end

/-- A pair of a string and of an array of such arrays, by way of two lazies. The name of the one is
written like a pointer to the other. -/
def escapedNames : SchemaGraph where
  schemas := #[.primitive .string, .lazy 0, .lazy 1, .tuple [1, 2], .array 2]
  lazies := #[⟨"a/b", some 0⟩, ⟨"a~1b", some 4⟩]

def escapedNamesDocument : Json :=
  .object [("$schema", .string vocabulary), ("type", .string "array"),
    ("prefixItems", .array [.object [("$ref", .string "#/$defs/a~1b")],
      .object [("$ref", .string "#/$defs/a~01b")]]),
    ("items", .bool false), ("minItems", .ofNat 2),
    ("$defs", .object [("a/b", .object [("type", .string "string")]),
      ("a~1b", .object
        [("type", .string "array"), ("items", .object [("$ref", .string "#/$defs/a~01b")])])])]

theorem document_escapedNames : escapedNames.document 3 = .ok escapedNamesDocument := by
  have hentries : escapedNames.renderLazies [0, 1] [0, 1] =
      .ok [(0, .type "string"), (1, .array (.ref 1) false)] := by
    refine renderLazies_unseen List.mem_cons_self rfl rfl ?_
    refine renderLazies_unseen List.mem_cons_self rfl rfl ?_
    exact (renderLazies_seen List.not_mem_nil).trans (renderLazies_nil _)
  show (escapedNames.renderLazies [0, 1] [0, 1] >>= _) = _
  rw [hentries]
  rfl

theorem built_escapedNames : escapedNames.Built := by
  have hlazies := (Built.empty.addLazy "a/b").addLazy "a~1b"
  have hstring := hlazies.add (.primitive .string) (by decide) (by rintro slot ⟨⟩)
  have hfirst := hstring.add (.lazy 0) (by decide) (by rintro slot ⟨⟩; decide)
  have hsecond := hfirst.add (.lazy 1) (by decide) (by rintro slot ⟨⟩; decide)
  have htuple := hsecond.add (.tuple [1, 2]) (by decide) (by rintro slot ⟨⟩)
  have hschemas := htuple.add (.array 2) (by decide) (by rintro slot ⟨⟩)
  exact (hschemas.fill 0 (show 0 < 5 by decide)).fill 1 (show 4 < 5 by decide)

theorem escapedNames_definesEach :
    (∀ id, ∀ child ∈ (escapedNames.get id).children, child < id) ∧
    (∀ id slot, escapedNames.get id = .lazy slot → slot < escapedNames.lazies.size) ∧
    escapedNames.document 3 = .ok escapedNamesDocument ∧
    escapedNames.DefinesEach 3 escapedNamesDocument := by
  have hslots := built_escapedNames.slots
  obtain ⟨-, hdocument⟩ := document_references built_escapedNames.below hslots 3
  obtain ⟨-, -, -, heach⟩ := hdocument _ document_escapedNames
  refine ⟨built_escapedNames.below, hslots, document_escapedNames, heach.mpr ?_⟩
  -- there are two lazies, of different names
  have hnames : ∀ slot < 2, ∀ other < 2,
      escapedNames.lazyName slot = escapedNames.lazyName other → slot = other := by
    decide
  exact fun slot hslot other hother => hnames slot (hslot.lt hslots) other (hother.lt hslots)

/-- A pair of a string and a number, by way of two lazies of one name. -/
def sharedName : SchemaGraph where
  schemas := #[.primitive .string, .primitive .number, .lazy 0, .lazy 1, .tuple [2, 3]]
  lazies := #[⟨"A", some 0⟩, ⟨"A", some 1⟩]

def sharedNameDocument : Json :=
  .object [("$schema", .string vocabulary), ("type", .string "array"),
    ("prefixItems", .array
      [.object [("$ref", .string "#/$defs/A")], .object [("$ref", .string "#/$defs/A")]]),
    ("items", .bool false), ("minItems", .ofNat 2),
    ("$defs", .object [("A", .object [("type", .string "number")])])]

theorem document_sharedName : sharedName.document 4 = .ok sharedNameDocument := by
  have hentries :
      sharedName.renderLazies [0, 1] [0, 1] = .ok [(0, .type "string"), (1, .type "number")] := by
    refine renderLazies_unseen List.mem_cons_self rfl rfl ?_
    exact renderLazies_unseen List.mem_cons_self rfl rfl (renderLazies_nil _)
  show (sharedName.renderLazies [0, 1] [0, 1] >>= _) = _
  rw [hentries]
  rfl

/-- The string is referred to, and the pointer to its lazy leads to the number. -/
theorem sharedName_replaced :
    (∀ id, ∀ child ∈ (sharedName.get id).children, child < id) ∧
    (∀ id slot, sharedName.get id = .lazy slot → slot < sharedName.lazies.size) ∧
    sharedName.document 4 = .ok sharedNameDocument ∧ sharedName.Refers 4 0 ∧ sharedName.Refers 4 1 ∧
    sharedNameDocument.definition? (pointer (sharedName.lazyName 0)) =
      some (.object [("type", .string "number")]) ∧
    ¬ sharedName.Renders 0 (.object [("type", .string "number")]) ∧
    sharedNameDocument.definitions.length = 1 ∧ ¬ sharedName.DefinesEach 4 sharedNameDocument := by
  have hlazies := (Built.empty.addLazy "A").addLazy "A"
  have hstring := hlazies.add (.primitive .string) (by decide) (by rintro slot ⟨⟩)
  have hnumber := hstring.add (.primitive .number) (by decide) (by rintro slot ⟨⟩)
  have hdeferred := hnumber.add (.lazy 0) (by decide) (by rintro slot ⟨⟩; decide)
  have hdeferred' := hdeferred.add (.lazy 1) (by decide) (by rintro slot ⟨⟩; decide)
  have hschemas := hdeferred'.add (.tuple [2, 3]) (by decide) (by rintro slot ⟨⟩)
  have hbuilt : sharedName.Built :=
    (hschemas.fill 0 (show 0 < 5 by decide)).fill 1 (show 1 < 5 by decide)
  have hroot : sharedName.render 4 = .ok (.tuple [.ref 0, .ref 1] 2) := rfl
  have hfirst : sharedName.Refers 4 0 := .direct hroot (by decide)
  have hsecond : sharedName.Refers 4 1 := .direct hroot (by decide)
  -- there is one definition, and it is the number, for the later lazy has replaced the earlier
  have hleads : sharedNameDocument.definition? (pointer (sharedName.lazyName 0)) =
      some (.object [("type", .string "number")]) := by
    rw [Json.definition?_eq]
    rfl
  have hother : ¬ sharedName.Renders 0 (.object [("type", .string "number")]) := by
    rintro ⟨target, schema, htarget, hschema, hjson⟩
    cases htarget
    cases hschema
    simp [toJson] at hjson
  refine ⟨hbuilt.below, hbuilt.slots, document_sharedName, hfirst, hsecond, hleads, hother, rfl, ?_⟩
  intro heach
  obtain ⟨json, hjson, hrenders⟩ := heach.leads 0 hfirst
  cases hleads.symm.trans hjson
  exact hother hrenders

end SchemaGraph

end TypeGraph
