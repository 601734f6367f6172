import TypeGraph.Proofs.Definition.Inlining
import TypeGraph.Proofs.SchemaGraph.Levels

/-!
# How builds end

A definition is entered only if it has no handle, and then it has one. So builds are nested in each
other at most as deep as there are definitions, and a build can only be stopped by an identifier
without a definition that the node leads to. A build that is not stopped has entered everything that
the node leads to.

Main results:

* `SchemaDraft.run_ne_endless`: no build runs out of depth.
* `SchemaDraft.missing_of_run`, `SchemaDraft.covers_of_run`: what builds fail for, and what they
  have entered if they succeed.
* `SchemaGraph.exists_ofNode_iff`: a node has a schema graph exactly if all that it leads to is
  defined.
-/

namespace TypeGraph

open Relation

namespace SchemaDraft

variable {definitions : DefinitionMap} {depth : Nat} {draft after : SchemaDraft}

/-! ## What builds leave alone -/

/-- What was in the first draft is in the second: handles, schemas, and lazies with their
targets. -/
structure Within (draft draft' : SchemaDraft) : Prop where
  handles : ∀ {identifier : String} {handle : SchemaId},
    draft.handles.get? identifier = some handle → draft'.handles.get? identifier = some handle
  grows : draft.graph.Grows draft'.graph
  lazies : draft.graph.lazies.size ≤ draft'.graph.lazies.size
  targets : ∀ slot < draft.graph.lazies.size, draft'.graph.target? slot = draft.graph.target? slot

theorem Within.refl (draft : SchemaDraft) : Within draft draft :=
  ⟨id, .refl _, Nat.le_refl _, fun _ _ => rfl⟩

theorem Within.trans {d₁ d₂ d₃ : SchemaDraft} (h : Within d₁ d₂) (h' : Within d₂ d₃) :
    Within d₁ d₃ where
  handles hh := h'.handles (h.handles hh)
  grows := h.grows.trans h'.grows
  lazies := Nat.le_trans h.lazies h'.lazies
  targets slot hslot :=
    (h'.targets slot (Nat.lt_of_lt_of_le hslot h.lazies)).trans (h.targets slot hslot)

theorem within_add (draft : SchemaDraft) (schema : Schema) :
    Within draft { draft with graph := (draft.graph.add schema).2 } :=
  ⟨id, draft.graph.grows_add schema, Nat.le_refl _, fun _ _ => rfl⟩

/-- A definition without a handle gets one, and a lazy of its own. -/
theorem within_enter {draft : SchemaDraft} {identifier : String}
    (hnew : draft.handles.get? identifier = none) : Within draft (draft.enter identifier) where
  handles {other handle} hh := by
    have hne : other ≠ identifier := by
      rintro rfl
      cases hh.symm.trans hnew
    rw [handle?_enter, if_neg hne, hh]
  grows := draft.grows_enter identifier
  lazies := by
    rw [lazies_size_enter]
    exact Nat.le_succ _
  targets slot _ := draft.target?_enter identifier slot

theorem keeps_within (draft : SchemaDraft) (depth : Nat) (node : Node) :
    Keeps (Within draft) (buildWithin definitions depth node) := by
  refine keeps_buildWithin ?_ ?_ ?_ depth node
  · exact fun draft' schema _ h => h.trans (draft'.within_add schema)
  · exact fun draft' identifier _ hnew h => h.trans (within_enter hnew)
  · intro before draft' target hbefore h
    refine ⟨h.handles, h.grows.trans (draft'.graph.grows_fill _ target), ?_, ?_⟩
    · exact h.lazies.trans_eq (draft'.graph.lazies_size_fill _ target).symm
    intro slot hslot
    -- what was entered later has a lazy of its own
    have hne : before.graph.lazies.size ≠ slot := by
      have := hbefore.lazies
      omega
    refine Eq.trans ?_ (h.targets slot hslot)
    unfold SchemaGraph.target? SchemaGraph.fill
    rw [Array.getElem?_modify, if_neg hne]

theorem Within.keys (h : Within draft after) : draft.handles.keys ⊆ after.handles.keys := by
  intro identifier hi
  obtain ⟨handle, hhandle⟩ := OrderedMap.mem_keys_iff.mp hi
  exact OrderedMap.mem_keys_iff.mpr ⟨handle, h.handles hhandle⟩

/-! ## Depth -/

/-- The handles are of definitions. -/
def Known (definitions : DefinitionMap) (draft : SchemaDraft) : Prop :=
  draft.handles.keys ⊆ definitions.keys

theorem known_enter {draft : SchemaDraft} {identifier : String} (hi : identifier ∈ definitions.keys)
    (hnew : draft.handles.get? identifier = none) (h : Known definitions draft) :
    Known definitions (draft.enter identifier) := by
  rw [Known, keys_enter hnew]
  exact List.append_subset.mpr ⟨h, List.cons_subset.mpr ⟨hi, List.nil_subset _⟩⟩

theorem keeps_known (depth : Nat) (node : Node) :
    Keeps (Known definitions) (buildWithin definitions depth node) :=
  keeps_buildWithin (fun _ _ _ h => h) (fun _ _ hi hnew h => known_enter hi hnew h)
    (fun _ _ _ _ h => h)
    depth node

/-- The handles are of definitions, and there is depth for all definitions without one. -/
structure Ready (definitions : DefinitionMap) (depth : Nat) (draft : SchemaDraft) : Prop where
  handles : draft.handles.keys ⊆ definitions.keys
  depth : definitions.size ≤ depth + draft.handles.size

/-- A definition without a handle leaves depth to enter it. -/
theorem Ready.depth_pos {draft : SchemaDraft} {identifier : String}
    (h : Ready definitions depth draft) (hi : identifier ∈ definitions.keys)
    (hnew : draft.handles.get? identifier = none) : 0 < depth := by
  have hnew' := OrderedMap.get?_eq_none_iff.mp hnew
  -- the definition comes on top of those that have a handle
  have hle := (List.subperm_of_subset (List.nodup_cons.mpr ⟨hnew', draft.handles.keys_nodup⟩)
    (List.cons_subset.mpr ⟨hi, h.handles⟩)).length_le
  rw [List.length_cons, OrderedMap.length_keys, OrderedMap.length_keys] at hle
  have := h.depth
  omega

theorem size_handles_enter {identifier : String} (hnew : draft.handles.get? identifier = none) :
    (draft.enter identifier).handles.size = draft.handles.size + 1 := by
  rw [← OrderedMap.length_keys, keys_enter hnew, List.length_append, OrderedMap.length_keys,
    List.length_singleton]

/-- A definition that is entered has a handle, which makes up for the level. -/
theorem Ready.enter (h : Ready definitions (depth + 1) draft) {identifier : String}
    (hi : identifier ∈ definitions.keys) (hnew : draft.handles.get? identifier = none) :
    Ready definitions depth (draft.enter identifier) := by
  refine ⟨known_enter hi hnew h.handles, ?_⟩
  have hdepth := h.depth
  rw [size_handles_enter hnew]
  omega

theorem keeps_ready (depth : Nat) (node : Node) :
    Keeps (Ready definitions depth) (buildWithin definitions depth node) := by
  -- only entering a definition changes the handles, and it adds one
  refine keeps_buildWithin (fun _ _ _ h => ⟨h.handles, h.depth⟩) ?_
    (fun _ _ _ _ h => ⟨h.handles, h.depth⟩)
    depth node
  intro draft identifier hi hnew h
  refine ⟨known_enter hi hnew h.handles, Nat.le_trans h.depth ?_⟩
  rw [size_handles_enter hnew]
  omega

/-- A build in two steps ends if both of them do. -/
theorem run_bind_ne_endless {α β : Type} {build : Build α} {f : α → Build β}
    (h : (build.run.run draft).1 ≠ .error .endless)
    (hf : ∀ {value built}, build.run.run draft = (.ok value, built) →
      ((f value).run.run built).1 ≠ .error .endless) :
    ((build >>= f).run.run draft).1 ≠ .error .endless := by
  rw [run_bind]
  rcases hrun : build.run.run draft with ⟨⟨halt⟩ | ⟨value⟩, built⟩
  · rintro ⟨⟩
    exact h (by rw [hrun])
  · exact hf hrun

theorem runAll_ne_endless {nodes : List Node}
    (h : ∀ node ∈ nodes, ∀ {draft : SchemaDraft}, Ready definitions depth draft →
      ((buildWithin definitions depth node).run.run draft).1 ≠ .error .endless)
    (hready : Ready definitions depth draft) :
    ((buildAll definitions depth nodes).run.run draft).1 ≠ .error .endless := by
  induction nodes generalizing draft with
  | nil =>
    rw [buildAll]
    rintro ⟨⟩
  | cons node rest ih =>
    rw [buildAll]
    refine run_bind_ne_endless (h node List.mem_cons_self hready) fun hfirst => ?_
    have hready := (keeps_ready depth node).of_run hready hfirst
    refine run_bind_ne_endless (ih (fun other ho => h other (List.mem_cons_of_mem _ ho)) hready) ?_
    rintro _ _ _ ⟨⟩

/-- A build that starts with depth for all definitions without a handle does not run out of it. -/
theorem run_ne_endless (depth : Nat) (node : Node) (hready : Ready definitions depth draft) :
    ((buildWithin definitions depth node).run.run draft).1 ≠ .error .endless := by
  -- induction on what is built: depth is asked for by definitions without a handle only
  induction depth, node using inductionOnBuilds definitions generalizing draft with
  | reference depth identifier displayName ih =>
    rcases hrun :
        (buildWithin definitions depth (.reference identifier displayName)).run.run draft with
      ⟨result, after⟩
    cases referenceRun hrun with
    | met | missing | built => rintro ⟨⟩
    | tooDeep new defined =>
      exact absurd (hready.depth_pos (mem_keys_of_node? defined) new) (Nat.lt_irrefl 0)
    | failed new defined inner =>
      have hinner := ih _ _ rfl defined (hready.enter (mem_keys_of_node? defined) new)
      rwa [inner] at hinner
  | single depth member ih =>
    rw [buildWithin]
    exact ih hready
  | level depth node href hsingle ih =>
    rw [buildWithin_eq href hsingle]
    refine run_bind_ne_endless (runAll_ne_endless (fun part hp => ih part hp) hready) ?_
    rintro _ _ _ ⟨⟩

/-! ## Failures -/

/-- Several builds fail where one of them does. -/
theorem exists_run_of_error {nodes : List Node} {halt : Halt}
    (h : (buildAll definitions depth nodes).run.run draft = (.error halt, after)) :
    ∃ node ∈ nodes, ∃ before,
      (buildWithin definitions depth node).run.run before = (.error halt, after) := by
  -- the nodes are built in order, and the first that fails ends the build
  induction nodes generalizing draft with
  | nil =>
    rw [buildAll] at h
    cases h
  | cons node rest ih =>
    rw [buildAll, run_bind] at h
    rcases hrun : (buildWithin definitions depth node).run.run draft with ⟨⟨halt⟩ | ⟨id⟩, built⟩
    · rw [hrun] at h
      cases h
      exact ⟨node, List.mem_cons_self, draft, hrun⟩
    · rw [hrun] at h
      dsimp only at h
      rw [run_bind] at h
      rcases hrest : (buildAll definitions depth rest).run.run built with ⟨⟨halt⟩ | ⟨ids⟩, built'⟩
      · rw [hrest] at h
        cases h
        obtain ⟨other, ho, before, hbefore⟩ := ih hrest
        exact ⟨other, List.mem_cons_of_mem _ ho, before, hbefore⟩
      · rw [hrest] at h
        cases h

/-- A build fails only for an identifier without a definition that the node leads to. -/
theorem missing_of_run {node : Node} {error : Error}
    (h : (buildWithin definitions depth node).run.run draft = (.error (.failed error), after)) :
    ∃ mentioned ∈ node.mentions, ∃ missing, ReflTransGen definitions.Refers mentioned missing ∧
      missing ∉ definitions.keys ∧ error = .unresolvedReference missing := by
  induction depth, node using inductionOnBuilds definitions generalizing draft after with
  | reference depth identifier displayName ih =>
    -- a reference fails if there is no definition, or if its body fails
    cases referenceRun h with
    | missing _ undefined =>
      refine ⟨identifier, List.mem_cons_self, identifier, .refl, ?_, rfl⟩
      rw [← DefinitionMap.node?_isSome_iff, undefined]
      exact Bool.false_ne_true
    | failed _ defined inner =>
      -- what the body leads to, the reference leads to
      obtain ⟨mentioned, hm, missing, hsteps, hmissing⟩ := ih _ _ rfl defined inner
      have hrefers := DefinitionMap.refers_iff.mpr ⟨_, defined, hm⟩
      exact ⟨identifier, List.mem_cons_self, missing, .head hrefers hsteps, hmissing⟩
  | single depth member ih =>
    rw [buildWithin] at h
    rw [Node.mentions, Node.mentionsInAll, List.append_nil]
    exact ih h
  | level depth node href hsingle ih =>
    rw [buildWithin_eq href hsingle, run_bind] at h
    rcases hrun : (buildAll definitions depth node.schemaParts).run.run draft with
      ⟨⟨halt⟩ | ⟨ids⟩, built⟩
    · rw [hrun] at h
      cases h
      obtain ⟨part, hp, before, hbefore⟩ := exists_run_of_error hrun
      obtain ⟨mentioned, hm, hmissing⟩ := ih part hp hbefore
      refine ⟨mentioned, ?_, hmissing⟩
      rw [Node.mentions_eq_schemaParts href]
      exact List.mem_flatMap.mpr ⟨part, hp, hm⟩
    · rw [hrun] at h
      cases h

/-! ## Successes -/

/-- All that is mentioned has been entered, and so has what is mentioned in the definitions that
were entered since the first draft. -/
structure Covers (definitions : DefinitionMap) (mentioned : List String)
    (draft after : SchemaDraft) :
    Prop where
  mentioned : mentioned ⊆ after.handles.keys
  entered : ∀ identifier ∈ after.handles.keys, identifier ∉ draft.handles.keys →
    ∀ other, definitions.Refers identifier other → other ∈ after.handles.keys

theorem Covers.append {d₁ d₂ d₃ : SchemaDraft} {mentioned more : List String}
    (h : Covers definitions mentioned d₁ d₂) (h' : Covers definitions more d₂ d₃)
    (hkept : d₂.handles.keys ⊆ d₃.handles.keys) : Covers definitions (mentioned ++ more) d₁ d₃ := by
  refine ⟨List.append_subset.mpr ⟨List.Subset.trans h.mentioned hkept, h'.mentioned⟩, ?_⟩
  intro identifier hi hnew other hrefers
  -- it was entered in the first part or in the second
  by_cases hmiddle : identifier ∈ d₂.handles.keys
  · exact hkept (h.entered identifier hmiddle hnew other hrefers)
  · exact h'.entered identifier hi hmiddle other hrefers

theorem covers_of_runAll {nodes : List Node} {ids : List SchemaId}
    (hnodes : ∀ node ∈ nodes, ∀ {draft after : SchemaDraft} {id : SchemaId},
      (buildWithin definitions depth node).run.run draft = (.ok id, after) →
        Covers definitions node.mentions draft after)
    (h : (buildAll definitions depth nodes).run.run draft = (.ok ids, after)) :
    Covers definitions (nodes.flatMap Node.mentions) draft after := by
  -- what the first node covers stays covered while the others are built
  induction nodes generalizing draft ids with
  | nil =>
    rw [buildAll] at h
    cases h
    exact ⟨List.nil_subset _, fun identifier hi hnew => absurd hi hnew⟩
  | cons node rest ih =>
    rw [buildAll] at h
    obtain ⟨id, d₁, hfirst, h⟩ := run_bind_eq_ok h
    obtain ⟨others, d₂, hothers, h⟩ := run_bind_eq_ok h
    cases h
    have hwithin : Within d₁ after :=
      (keeps_buildAll fun other _ => keeps_within d₁ depth other).of_run (.refl d₁) hothers
    rw [List.flatMap_cons]
    exact (hnodes node List.mem_cons_self hfirst).append
      (ih (fun other ho => hnodes other (List.mem_cons_of_mem _ ho)) hothers) hwithin.keys

/-- A build that succeeds has entered all that the node leads to, apart from what had been entered
before. -/
theorem covers_of_run {node : Node} {id : SchemaId}
    (h : (buildWithin definitions depth node).run.run draft = (.ok id, after)) :
    Covers definitions node.mentions draft after := by
  induction depth, node using inductionOnBuilds definitions generalizing draft after id with
  | reference depth identifier displayName ih =>
    cases referenceRun h with
    | met found =>
      refine ⟨?_, fun other ho hnew => absurd ho hnew⟩
      exact List.cons_subset.mpr ⟨OrderedMap.mem_keys_iff.mpr ⟨_, found⟩, List.nil_subset _⟩
    | @built depth body target built new defined inner =>
      have hbody := ih _ _ rfl defined inner
      have hwithin : Within (draft.enter identifier) built :=
        (keeps_within _ depth body).of_run (.refl _) inner
      -- the handle was there before the body was built
      have hentered : identifier ∈ (draft.enter identifier).handles.keys := by
        rw [keys_enter new]
        exact List.mem_append_right _ List.mem_cons_self
      refine ⟨List.cons_subset.mpr ⟨hwithin.keys hentered, List.nil_subset _⟩, ?_⟩
      intro other ho hnew next hrefers
      by_cases heq : other = identifier
      · -- the definition itself mentions what its body does
        obtain ⟨body', hbody', hnext⟩ := DefinitionMap.refers_iff.mp (heq ▸ hrefers)
        cases defined.symm.trans hbody'
        exact hbody.mentioned hnext
      · refine hbody.entered other ho ?_ next hrefers
        rw [keys_enter new, List.mem_append, List.mem_singleton]
        exact not_or.mpr ⟨hnew, heq⟩
  | single depth member ih =>
    rw [buildWithin] at h
    rw [Node.mentions, Node.mentionsInAll, List.append_nil]
    exact ih h
  | level depth node href hsingle ih =>
    rw [buildWithin_eq href hsingle] at h
    obtain ⟨ids, d₁, hids, h⟩ := run_bind_eq_ok h
    have hparts := covers_of_runAll ih hids
    cases h
    -- the schema that is added is no handle
    rw [Node.mentions_eq_schemaParts href]
    exact ⟨hparts.mentioned, hparts.entered⟩

/-- A build that succeeds has met no identifier without a definition. -/
theorem mentions_of_run {id : SchemaId} (hknown : Known definitions draft) {node : Node}
    (h : (buildWithin definitions depth node).run.run draft = (.ok id, after)) :
    ∀ identifier ∈ node.mentions, identifier ∈ definitions.keys := fun _ hi =>
  (keeps_known depth node).of_run hknown h ((covers_of_run h).mentioned hi)

/-! ## Builds of what is defined -/

/-- The build ends well, and leaves the depth for what is left. -/
def Builds {α : Type} (definitions : DefinitionMap) (depth : Nat) (build : Build α) : Prop :=
  ∀ draft, Ready definitions depth draft →
    ∃ value draft', build.run.run draft = (.ok value, draft') ∧ Ready definitions depth draft'

/-- Nothing stops the build of a node that leads to definitions only. -/
theorem builds_of_defined {node : Node}
    (h : ∀ mentioned ∈ node.mentions, ∀ identifier,
      ReflTransGen definitions.Refers mentioned identifier → identifier ∈ definitions.keys) :
    Builds definitions depth (buildWithin definitions depth node) := by
  intro draft hready
  rcases hrun : (buildWithin definitions depth node).run.run draft with ⟨⟨halt⟩ | ⟨id⟩, after⟩
  · cases halt with
    | endless => exact absurd (by rw [hrun]) (run_ne_endless depth node hready)
    | failed error =>
      obtain ⟨mentioned, hm, missing, hsteps, hmissing, -⟩ := missing_of_run hrun
      exact absurd (h mentioned hm missing hsteps) hmissing
  · exact ⟨id, after, rfl, (keeps_ready depth node).of_run hready hrun⟩

/-- Where bodies mention definitions only, nothing else is led to. -/
theorem mem_keys_of_refers
    (hdefined : ∀ identifier body, definitions.node? identifier = some body →
      ∀ other ∈ body.mentions, other ∈ definitions.keys)
    {start identifier : String} (hstart : start ∈ definitions.keys)
    (hsteps : ReflTransGen definitions.Refers start identifier) :
    identifier ∈ definitions.keys := by
  rcases ReflTransGen.cases_tail hsteps with rfl | ⟨last, -, hrefers⟩
  · exact hstart
  · obtain ⟨body, hbody, hmentions⟩ := DefinitionMap.refers_iff.mp hrefers
    exact hdefined last body hbody identifier hmentions

/-- While there is depth for all definitions without a handle, every reference to a definition is
built well. -/
theorem builds_reference
    (hdefined : ∀ identifier body, definitions.node? identifier = some body →
      ∀ other ∈ body.mentions, other ∈ definitions.keys)
    (identifier : String) (displayName : Option String) (hi : identifier ∈ definitions.keys) :
    Builds definitions depth
      (buildWithin definitions depth (.reference identifier displayName)) := by
  refine builds_of_defined fun mentioned hm other hsteps => mem_keys_of_refers hdefined ?_ hsteps
  exact List.mem_singleton.mp hm ▸ hi

theorem ready_empty (definitions : DefinitionMap) : Ready definitions definitions.size {} :=
  ⟨List.nil_subset _, Nat.le_add_right _ _⟩

end SchemaDraft

namespace SchemaGraph

/-- A node has a schema graph exactly if all identifiers that it leads to have definitions. -/
theorem exists_ofNode_iff {definitions : DefinitionMap} {node : Node} :
    (∃ graph root, ofNode definitions node = .ok (graph, root)) ↔
      ∀ mentioned ∈ node.mentions, ∀ identifier,
        ReflTransGen definitions.Refers mentioned identifier → identifier ∈ definitions.keys := by
  rcases hrun : (SchemaDraft.buildWithin definitions definitions.size node).run.run {} with
    ⟨result, after⟩
  unfold ofNode SchemaDraft.build
  rw [hrun]
  constructor
  · rintro ⟨graph, root, h⟩ mentioned hm identifier hsteps
    cases result with
    | error halt => cases h
    | ok id =>
      have hknown : SchemaDraft.Known definitions after :=
        (SchemaDraft.keeps_known _ node).of_run (List.nil_subset _) hrun
      have hcovers := SchemaDraft.covers_of_run hrun
      -- nothing had been entered before, so what was entered leads to nothing else
      have hentered : identifier ∈ after.handles.keys := by
        induction hsteps with
        | refl => exact hcovers.mentioned hm
        | tail _ hrefers ih => exact hcovers.entered _ ih List.not_mem_nil _ hrefers
      exact hknown hentered
  · intro h
    obtain ⟨id, after', hrun', -⟩ :=
      SchemaDraft.builds_of_defined h {} (SchemaDraft.ready_empty definitions)
    cases hrun.symm.trans hrun'
    exact ⟨after.graph, id, rfl⟩

/-- A closed extraction has a schema graph. -/
theorem exists_ofNode {extraction : Extraction} (h : extraction.Closed) :
    ∃ graph root, ofNode extraction.definitions extraction.root = .ok (graph, root) := by
  refine exists_ofNode_iff.mpr fun mentioned hm identifier hsteps => ?_
  refine SchemaDraft.mem_keys_of_refers ?_ (h.root.mem_keys mentioned hm) hsteps
  intro other body hbody
  obtain ⟨definition, hd, rfl⟩ := Option.map_eq_some_iff.mp hbody
  exact (h.bodies other definition hd).mem_keys

end SchemaGraph

end TypeGraph
