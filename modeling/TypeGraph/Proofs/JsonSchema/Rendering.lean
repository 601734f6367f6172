import TypeGraph.JsonSchema.Document
import TypeGraph.Proofs.Emission.Faults
import TypeGraph.Proofs.Lists

/-!
# Renderings, step by step

What one step of a rendering does, said once: it fails for what JSON lacks, for a key that leads
nowhere, or where one of its parts fails, and the lazies that it refers to are itself or those that
its parts refer to. What holds of all renderings follows by induction on the depth.

Schemas are made of earlier ones, so a rendering comes to its end.

Main results:

* `SchemaGraph.faults_renderWithin_succ`, `SchemaGraph.mem_references_of_renderWithin`: one step.
* `SchemaGraph.document_ne_endless`: writing a document ends.
-/

namespace TypeGraph

/-! ## References -/

namespace JsonSchema

theorem referencesInAll_eq (schemas : List JsonSchema) :
    referencesInAll schemas = schemas.flatMap references :=
  eq_flatMap rfl (fun _ _ => by rw [referencesInAll]) schemas

theorem referencesInProperties_eq (properties : List (String × JsonSchema)) :
    referencesInProperties properties = properties.flatMap fun property =>
      property.2.references :=
  eq_flatMap rfl (fun _ _ => by rw [referencesInProperties]) properties

end JsonSchema

theorem eq_ok_of_orHalt {α : Type} {result : Except Error α} {value : α}
    (h : (orHalt result : Except Halt α) = .ok value) : result = .ok value := by
  cases result with
  | error => cases h
  | ok => exact congrArg Except.ok (Except.ok.inj h)

namespace SchemaGraph

open JsonSchema

variable {graph : SchemaGraph} {allowed : Halt → Prop} {depth : Nat} {id : SchemaId}

/-! ## One step -/

/-- The schemas that are rendered for a schema: what it is made of, and what stands in its
properties and slots. -/
def renderedParts (graph : SchemaGraph) (id : SchemaId) : List SchemaId :=
  match graph.get id with
  | .object properties => properties.entries.map fun property => (graph.slotContent property.2).1
  | .tuple elements => elements.map fun element => (graph.slotContent element).1
  | schema => schema.children

theorem faults_unsupported
    (hfeature : ∀ feature, allowed (.failed (.unsupportedFeature .jsonSchema feature))) {α : Type}
    (feature : Feature) : Faults allowed (unsupported feature : Except Halt α) :=
  .throw (hfeature feature)

theorem faults_renderPrimitive
    (hfeature : ∀ feature, allowed (.failed (.unsupportedFeature .jsonSchema feature)))
    (kind : Primitive) : Faults allowed (renderPrimitive kind) := by
  cases kind with
  | undefined | void | bigint | date | regexp => exact faults_unsupported hfeature _
  | _ => exact .pure _

theorem faults_renderLiteral
    (hfeature : ∀ feature, allowed (.failed (.unsupportedFeature .jsonSchema feature)))
    (value : Literal) : Faults allowed (renderLiteral value) := by
  cases value with
  | number value =>
    rw [renderLiteral]
    split
    · exact .pure _
    · exact faults_unsupported hfeature _
  | bigint => exact faults_unsupported hfeature _
  | _ => exact .pure _

/-- A step fails for a feature, for a key that is not resolved, or where a part fails. -/
theorem faults_renderWithin_succ
    (hfeature : ∀ feature, allowed (.failed (.unsupportedFeature .jsonSchema feature)))
    (hresolve : ∀ key, Faults allowed (orHalt (graph.resolve key) : Except Halt Schema))
    (hparts : ∀ part ∈ graph.renderedParts id, Faults allowed (graph.renderWithin depth part)) :
    Faults allowed (graph.renderWithin (depth + 1) id) := by
  unfold renderedParts at hparts
  rw [renderWithin]
  cases hget : graph.get id with
  | primitive kind => exact faults_renderPrimitive hfeature kind
  | literal value => exact faults_renderLiteral hfeature value
  | array element | set element =>
    rw [hget] at hparts
    exact (hparts element List.mem_cons_self).bind fun _ => .pure _
  | record key value =>
    rw [hget] at hparts
    have hvalue (names : Option JsonSchema) : Faults allowed
        (do return JsonSchema.record names (← graph.renderWithin depth value)) :=
      (hparts value (by simp [Schema.children])).bind fun _ => .pure _
    -- names are rendered only if the key does not admit all of them
    refine (hresolve key).bind fun resolved => ?_
    dsimp only
    split
    · exact (Faults.pure none).bind hvalue
    · exact Faults.bind ((hparts key List.mem_cons_self).bind fun _ => .pure _) hvalue
  | map | optional | function => exact faults_unsupported hfeature _
  | object properties =>
    rw [hget] at hparts
    refine Faults.bind (.mapM fun slot hs => ?_) fun _ => .pure _
    obtain ⟨property, hp, rfl⟩ := List.mem_map.mp hs
    exact (hparts _ (List.mem_map_of_mem hp)).bind fun _ => .pure _
  | union members | intersection members =>
    rw [hget] at hparts
    exact Faults.bind (.mapM hparts) fun _ => .pure _
  | tuple elements =>
    rw [hget] at hparts
    refine Faults.bind (.mapM fun slot hs => ?_) fun _ => .pure _
    obtain ⟨element, he, rfl⟩ := List.mem_map.mp hs
    exact hparts _ (List.mem_map_of_mem he)
  | «lazy» slot => exact .pure _

theorem references_renderPrimitive {kind : Primitive} {schema : JsonSchema}
    (h : renderPrimitive kind = .ok schema) : schema.references = [] := by
  cases kind <;> cases h <;> rfl

theorem references_renderLiteral {value : Literal} {schema : JsonSchema}
    (h : renderLiteral value = .ok schema) : schema.references = [] := by
  cases value with
  | number value =>
    rw [renderLiteral] at h
    split at h
    · cases h
      rfl
    · cases h
  | _ => cases h <;> rfl

/-- A rendering refers to a lazy because it is the lazy's, or because the rendering of a part
does. -/
theorem mem_references_of_renderWithin {schema : JsonSchema} {slot : LazyId}
    (h : graph.renderWithin (depth + 1) id = .ok schema) (hslot : slot ∈ schema.references) :
    graph.get id = .lazy slot ∨ ∃ part inner, part ∈ graph.renderedParts id ∧
      graph.renderWithin depth part = .ok inner ∧ slot ∈ inner.references := by
  -- members are rendered one by one, and what one of them refers to is enough
  have hmembers {ids : List SchemaId} {schemas : List JsonSchema}
      (hrendered : ids.mapM (graph.renderWithin depth) = .ok schemas)
      (hm : slot ∈ referencesInAll schemas) :
      ∃ part inner, part ∈ ids ∧ graph.renderWithin depth part = .ok inner ∧
        slot ∈ inner.references := by
    rw [referencesInAll_eq] at hm
    obtain ⟨inner, hinner, hslot⟩ := List.mem_flatMap.mp hm
    obtain ⟨part, hpart, hok⟩ := exists_of_mem_forall₂ (forall₂_of_mapM hrendered).flip hinner
    exact ⟨part, inner, hpart, hok, hslot⟩
  unfold renderedParts
  rw [renderWithin] at h
  cases hget : graph.get id with
  | primitive kind =>
    rw [hget] at h
    rw [references_renderPrimitive h] at hslot
    cases hslot
  | literal value =>
    rw [hget] at h
    rw [references_renderLiteral h] at hslot
    cases hslot
  | array element | set element =>
    rw [hget] at h
    obtain ⟨inner, hinner, h⟩ := exists_of_bind_eq_ok h
    cases h
    exact .inr ⟨element, inner, List.mem_cons_self, hinner, hslot⟩
  | record key value =>
    rw [hget] at h
    obtain ⟨resolved, -, h⟩ := exists_of_bind_eq_ok h
    dsimp only at h
    -- the key is rendered unless any name will do
    split at h
    · obtain ⟨names, hnames, h⟩ := exists_of_bind_eq_ok h
      obtain ⟨inner, hinner, h⟩ := exists_of_bind_eq_ok h
      cases hnames
      cases h
      exact .inr ⟨value, inner, by simp [Schema.children], hinner, hslot⟩
    · obtain ⟨names, hnames, h⟩ := exists_of_bind_eq_ok h
      obtain ⟨inner, hinner, h⟩ := exists_of_bind_eq_ok h
      obtain ⟨keySchema, hkey, hnames⟩ := exists_of_bind_eq_ok hnames
      cases hnames
      cases h
      rcases List.mem_append.mp hslot with hslot | hslot
      · exact .inr ⟨key, keySchema, List.mem_cons_self, hkey, hslot⟩
      · exact .inr ⟨value, inner, by simp [Schema.children], hinner, hslot⟩
  | map | optional | function =>
    rw [hget] at h
    cases h
  | object properties =>
    rw [hget] at h
    obtain ⟨rendered, hrendered, h⟩ := exists_of_bind_eq_ok h
    cases h
    rw [references, referencesInProperties_eq] at hslot
    obtain ⟨property, hproperty, hslot⟩ := List.mem_flatMap.mp hslot
    have hrendered := forall₂_of_mapM_values
      (f := fun slot : SchemaId × Bool => graph.renderWithin depth slot.1) hrendered
    obtain ⟨entry, hentry, -, hinner⟩ := exists_of_mem_forall₂ hrendered hproperty
    obtain ⟨original, horiginal, rfl⟩ := List.mem_map.mp hentry
    exact .inr ⟨_, property.2, List.mem_map_of_mem horiginal, hinner, hslot⟩
  | union members | intersection members =>
    rw [hget] at h
    obtain ⟨schemas, hschemas, h⟩ := exists_of_bind_eq_ok h
    cases h
    exact .inr (hmembers hschemas hslot)
  | tuple elements =>
    rw [hget] at h
    obtain ⟨schemas, hschemas, h⟩ := exists_of_bind_eq_ok h
    cases h
    -- what is rendered for a slot is what stands in it
    have hcontents : (elements.map fun element => (graph.slotContent element).1).mapM
        (graph.renderWithin depth) = .ok schemas := by
      rw [List.mapM_map] at hschemas ⊢
      exact hschemas
    exact .inr (hmembers hcontents hslot)
  | «lazy» other =>
    rw [hget] at h
    cases h
    rw [List.mem_singleton.mp hslot]
    exact .inl rfl

/-- A lazy that a rendering refers to is in the graph. -/
theorem exists_get_of_mem_references {schema : JsonSchema} {slot : LazyId}
    (h : graph.renderWithin depth id = .ok schema) (hslot : slot ∈ schema.references) :
    ∃ place, graph.get place = .lazy slot := by
  -- induction on the depth, down to the part that is the lazy
  induction depth generalizing id schema with
  | zero => cases h
  | succ depth ih =>
    rcases mem_references_of_renderWithin h hslot with hget | ⟨part, inner, -, hinner, hslot⟩
    · exact ⟨id, hget⟩
    · exact ih hinner hslot

/-! ## Ends -/

/-- Schemas are rendered after earlier ones only. -/
theorem renderedParts_below (hbelow : ∀ id, ∀ child ∈ (graph.get id).children, child < id) :
    ∀ part ∈ graph.renderedParts id, part < id := by
  -- what stands in a slot is no later than the slot
  have hcontent (slot : SchemaId) : (graph.slotContent slot).1 ≤ slot := by
    unfold slotContent
    split
    · rename_i inner hget
      exact Nat.le_of_lt (hbelow slot inner (by rw [hget]; exact List.mem_cons_self))
    · exact Nat.le_refl _
  have hchild := hbelow id
  unfold renderedParts
  intro part hpart
  split at hpart
  · rename_i properties hget
    obtain ⟨property, hp, rfl⟩ := List.mem_map.mp hpart
    exact Nat.lt_of_le_of_lt (hcontent _) (hchild _ (by rw [hget]; exact List.mem_map_of_mem hp))
  · rename_i elements hget
    obtain ⟨element, he, rfl⟩ := List.mem_map.mp hpart
    exact Nat.lt_of_le_of_lt (hcontent _) (hchild _ (by rw [hget]; exact he))
  · exact hchild part hpart

theorem faults_render_of_below (hbelow : ∀ id, ∀ child ∈ (graph.get id).children, child < id)
    (hdepth : min id graph.size < depth) : Faults (· ≠ .endless) (graph.renderWithin depth id) := by
  have hhalt {α : Type} (result : Except Error α) :
      Faults (· ≠ .endless) (orHalt result : Except Halt α) := by
    cases result with
    | ok value => exact .pure value
    | error error => exact .throw Halt.noConfusion
  induction depth generalizing id with
  | zero => exact absurd hdepth (Nat.not_lt_zero _)
  | succ depth ih =>
    refine faults_renderWithin_succ (fun _ => Halt.noConfusion) (fun key => hhalt _)
      fun part hpart => ?_
    have hpart' := renderedParts_below hbelow part hpart
    refine ih ?_
    -- behind the last schema there is nothing to be rendered
    by_cases hid : id < graph.size
    · rw [Nat.min_eq_left (Nat.le_of_lt hid)] at hdepth
      exact Nat.lt_of_le_of_lt (Nat.min_le_left ..)
        (Nat.lt_of_lt_of_le hpart' (Nat.le_of_lt_succ hdepth))
    · have hnone : graph.get id = .primitive .never := by
        unfold get
        rw [Array.getElem?_eq_none (Nat.le_of_not_lt hid)]
        rfl
      unfold renderedParts at hpart
      rw [hnone] at hpart
      cases hpart

/-! ## Documents -/

theorem faults_renderLazies (hrender : ∀ id, Faults allowed (graph.render id))
    {unseen pending : List LazyId}
    (htarget : ∀ slot ∈ unseen,
      Faults allowed (orHalt (graph.lazyTarget slot) : Except Halt SchemaId)) :
    Faults allowed (graph.renderLazies unseen pending) := by
  induction unseen, pending using renderLazies.induct with
  | case1 unseen =>
    rw [renderLazies]
    exact .pure _
  | case2 unseen slot pending hmem hlt ih =>
    rw [renderLazies, dif_pos hmem]
    refine (htarget slot hmem).bind fun target => (hrender target).bind fun schema => ?_
    exact (ih schema fun other ho => htarget other (List.mem_of_mem_erase ho)).bind fun _ => .pure _
  | case3 unseen slot pending hmem ih =>
    rw [renderLazies, dif_neg hmem]
    exact ih htarget

/-- A document fails where a rendering fails or a lazy has no target. -/
theorem faults_document_of_render (hrender : ∀ id, Faults allowed (graph.render id))
    (htarget : ∀ slot < graph.lazies.size,
      Faults allowed (orHalt (graph.lazyTarget slot) : Except Halt SchemaId)) (root : SchemaId) :
    Faults allowed (graph.document root) :=
  (hrender root).bind fun _ =>
    (faults_renderLazies hrender fun slot hs => htarget slot (List.mem_range.mp hs)).bind
      fun _ => .pure _

/-- Where schemas are made of earlier ones, writing a document ends. -/
theorem document_ne_endless (hbelow : ∀ id, ∀ child ∈ (graph.get id).children, child < id)
    (root : SchemaId) : graph.document root ≠ .error .endless := by
  have hrender (id : SchemaId) : Faults (· ≠ .endless) (graph.render id) :=
    faults_render_of_below hbelow (Nat.lt_succ_of_le (Nat.min_le_right ..))
  have htarget (slot : LazyId) :
      Faults (· ≠ .endless) (orHalt (graph.lazyTarget slot) : Except Halt SchemaId) := by
    cases graph.lazyTarget slot with
    | ok target => exact .pure target
    | error error => exact .throw Halt.noConfusion
  exact fun h => faults_document_of_render hrender (fun slot _ => htarget slot) root _ h rfl

end SchemaGraph

end TypeGraph
