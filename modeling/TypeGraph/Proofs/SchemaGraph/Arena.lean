import TypeGraph.Proofs.SchemaGraph.Ends

/-!
# The arena of a builder

Schemas are only added, and refer to what is there by number: to schemas that were there before, or
to a lazy. `SchemaDraft.Arena` is the invariant of this. Three things change a draft (`Arena.add`,
`Arena.enter` and `Arena.fill`), and a build does nothing else, so it keeps the invariant wherever
it stops.

Main results:

* `SchemaDraft.places_buildWithin`: a build keeps the invariant, and what it returns is in the
  graph.
-/

namespace TypeGraph

/-- A schema is made of what it is put over. -/
theorem Schema.children_overParts (node : Node) (ids : List SchemaId) :
    (overParts node ids).children ⊆ ids := by
  intro child hc
  -- one case for each form of schema
  unfold overParts at hc
  split at hc
  · cases hc
  · cases hc
  · exact hc
  · exact hc
  · exact hc
  · exact hc
  · -- the numbers of an object are those that are paired with its names
    obtain ⟨entry, he, rfl⟩ := List.mem_map.mp hc
    exact (List.of_mem_zip (Entries.mem_ofList he)).2
  · split at hc
    · exact hc
    · exact hc
    · cases hc
  · exact hc
  · exact hc
  · simpa [children] using hc
  · -- the last of them is the result of a function
    rename_i parameters returns
    rcases List.mem_append.mp hc with hc | hc
    · exact List.mem_of_mem_dropLast hc
    · exact List.mem_of_getLast? (Option.mem_toList.mp hc)
  · cases hc

namespace SchemaGraph

variable {graph : SchemaGraph}

theorem lt_size_of_get_lazy {id : SchemaId} {slot : LazyId} (h : graph.get id = .lazy slot) :
    id < graph.size := by
  by_contra hge
  rw [get, Array.getElem?_eq_none (Nat.le_of_not_lt hge)] at h
  cases h

theorem lt_size_of_name? {slot : LazyId} {name : String} (h : graph.name? slot = some name) :
    slot < graph.lazies.size :=
  name?_isSome_iff.mp (Option.isSome_of_mem h)

theorem lt_size_of_target? {slot : LazyId} {target : SchemaId}
    (h : graph.target? slot = some target) : slot < graph.lazies.size := by
  obtain ⟨lazy, hlazy, -⟩ := Option.bind_eq_some_iff.mp h
  exact (Array.getElem?_eq_some_iff.mp hlazy).1

end SchemaGraph

namespace SchemaDraft

open SchemaGraph

variable {definitions : DefinitionMap} {draft : SchemaDraft}

/-! ## The invariant -/

/-- All lazies are in the graph. -/
def InRange (draft : SchemaDraft) : Prop :=
  ∀ id slot, draft.graph.get id = .lazy slot → slot < draft.graph.lazies.size

/-- Numbers that are stored are in range, those in schemas go down, and each definition that was
entered has one lazy, with one schema for it, which is its handle. -/
structure Arena (definitions : DefinitionMap) (draft : SchemaDraft) : Prop where
  below : ∀ id < draft.graph.size, ∀ child ∈ (draft.graph.get id).children, child < id
  lazies : InRange draft
  targets : ∀ slot target, draft.graph.target? slot = some target → target < draft.graph.size
  defined : ∀ slot name, draft.graph.name? slot = some name → name ∈ definitions.keys
  distinct : ∀ slot other name, draft.graph.name? slot = some name →
    draft.graph.name? other = some name → slot = other
  entry : ∀ slot < draft.graph.lazies.size, ∃! id, draft.graph.get id = .lazy slot
  handles : ∀ identifier handle, draft.handles.get? identifier = some handle ↔
    ∃ slot, draft.graph.get handle = .lazy slot ∧ draft.graph.name? slot = some identifier

theorem Arena.empty : Arena definitions {} where
  below id hid := absurd hid (Nat.not_lt_zero id)
  lazies id slot h := by cases h
  targets slot target h := by cases h
  defined slot name h := by cases h
  distinct slot other name h := by cases h
  entry slot hslot := absurd hslot (Nat.not_lt_zero slot)
  handles identifier handle := by
    constructor
    · intro h
      cases h
    · rintro ⟨slot, h, -⟩
      cases h

/-- A schema over schemas that are there. -/
theorem Arena.add (h : Arena definitions draft) {schema : Schema}
    (plain : ∀ slot, schema ≠ .lazy slot)
    (hbelow : ∀ child ∈ schema.children, child < draft.graph.size) :
    Arena definitions { draft with graph := (draft.graph.add schema).2 } := by
  have hget := draft.graph.get_add schema
  -- the new schema is no lazy, so lazies are found where they were
  have hlazy (id : SchemaId) (slot : LazyId) :
      (draft.graph.add schema).2.get id = .lazy slot ↔ draft.graph.get id = .lazy slot := by
    rw [hget]
    split
    · rename_i heq
      refine iff_of_false (plain slot) fun hold => ?_
      exact Nat.lt_irrefl _ (heq ▸ lt_size_of_get_lazy hold)
    · exact Iff.rfl
  refine ⟨?_, ?_, ?_, h.defined, h.distinct, ?_, ?_⟩
  · intro id hid child hc
    have hid := Nat.lt_of_lt_of_eq hid (size_add ..)
    rw [hget] at hc
    split at hc
    · rename_i heq
      exact heq ▸ hbelow child hc
    · rename_i hne
      exact h.below id (Nat.lt_of_le_of_ne (Nat.le_of_lt_succ hid) hne) child hc
  · exact fun id slot hslot => h.lazies id slot ((hlazy id slot).mp hslot)
  · intro slot target htarget
    exact Nat.lt_of_lt_of_le (h.targets slot target htarget) (draft.graph.grows_add schema).size
  · intro slot hslot
    simpa only [hlazy] using h.entry slot hslot
  · intro identifier handle
    rw [h.handles]
    exact exists_congr fun slot => and_congr_left' (hlazy handle slot).symm

/-! ### Entering a definition

One lazy, one schema for it and one handle come to those that were there. -/

theorem get_enter_lazy_iff {identifier : String} {id : SchemaId} {slot : LazyId} :
    (draft.enter identifier).graph.get id = .lazy slot ↔
      (id = draft.graph.size ∧ slot = draft.graph.lazies.size) ∨
      draft.graph.get id = .lazy slot := by
  rw [get_enter_eq]
  split
  · rename_i heq
    constructor
    · intro hslot
      cases hslot
      exact .inl ⟨heq, rfl⟩
    · rintro (⟨-, rfl⟩ | hold)
      · rfl
      · exact absurd (lt_size_of_get_lazy hold) (heq ▸ Nat.lt_irrefl _)
  · rename_i hne
    rw [or_iff_right fun hnew => hne hnew.1]

theorem name?_enter_iff {identifier name : String} {slot : LazyId} :
    (draft.enter identifier).graph.name? slot = some name ↔
      (slot = draft.graph.lazies.size ∧ name = identifier) ∨
      draft.graph.name? slot = some name := by
  rw [name?_enter]
  split
  · rename_i heq
    constructor
    · intro hname
      cases hname
      exact .inl ⟨heq, rfl⟩
    · rintro (⟨-, rfl⟩ | hold)
      · rfl
      · exact absurd (lt_size_of_name? hold) (heq ▸ Nat.lt_irrefl _)
  · rename_i hne
    rw [or_iff_right fun hnew => hne hnew.1]

theorem handle?_enter_iff {identifier other : String} {handle : SchemaId}
    (hnew : draft.handles.get? identifier = none) :
    (draft.enter identifier).handles.get? other = some handle ↔
      (other = identifier ∧ handle = draft.graph.size) ∨
      draft.handles.get? other = some handle := by
  rw [handle?_enter]
  split
  · rename_i heq
    subst heq
    rw [hnew, Option.some_inj, or_iff_left (Option.some_ne_none handle).symm, and_iff_right rfl]
    exact eq_comm
  · rename_i hne
    rw [or_iff_right fun hnew => hne hnew.1]

/-- A definition without a handle. -/
theorem Arena.enter (h : Arena definitions draft) {identifier : String}
    (hi : identifier ∈ definitions.keys) (hnew : draft.handles.get? identifier = none) :
    Arena definitions (draft.enter identifier) := by
  -- no lazy is named after the definition, as that would have given it a handle
  have hunnamed (slot : LazyId) : draft.graph.name? slot ≠ some identifier := by
    intro hslot
    obtain ⟨id, hid, -⟩ := h.entry slot (lt_size_of_name? hslot)
    cases hnew.symm.trans ((h.handles identifier id).mpr ⟨slot, hid, hslot⟩)
  refine ⟨?_, ?_, ?_, ?_, ?_, ?_, ?_⟩
  · intro id hid child hc
    rw [size_enter] at hid
    rw [get_enter_eq] at hc
    split at hc
    · cases hc
    · rename_i hne
      exact h.below id (Nat.lt_of_le_of_ne (Nat.le_of_lt_succ hid) hne) child hc
  · intro id slot hid
    rw [lazies_size_enter]
    rcases get_enter_lazy_iff.mp hid with ⟨-, rfl⟩ | hold
    · exact Nat.lt_succ_self _
    · exact Nat.lt_succ_of_lt (h.lazies id slot hold)
  · intro slot target htarget
    rw [size_enter]
    rw [target?_enter] at htarget
    exact Nat.lt_succ_of_lt (h.targets slot target htarget)
  · intro slot name hname
    rcases name?_enter_iff.mp hname with ⟨-, rfl⟩ | hold
    · exact hi
    · exact h.defined slot name hold
  · intro slot other name hslot hother
    rcases name?_enter_iff.mp hslot, name?_enter_iff.mp hother with
      ⟨⟨rfl, rfl⟩ | hold, ⟨rfl, hname⟩ | hold'⟩
    · rfl
    · exact absurd hold' (hunnamed other)
    · exact absurd (hname ▸ hold) (hunnamed slot)
    · exact h.distinct slot other name hold hold'
  · intro slot hslot
    rw [lazies_size_enter] at hslot
    simp only [get_enter_lazy_iff]
    rcases Nat.lt_succ_iff_lt_or_eq.mp hslot with hlt | rfl
    · simpa only [Nat.ne_of_lt hlt, and_false, false_or] using h.entry slot hlt
    · refine ⟨draft.graph.size, .inl ⟨rfl, rfl⟩, ?_⟩
      rintro id (⟨rfl, -⟩ | hold)
      · rfl
      · exact absurd (h.lazies id _ hold) (Nat.lt_irrefl _)
  · intro other handle
    simp only [handle?_enter_iff hnew, get_enter_lazy_iff, name?_enter_iff, h.handles]
    constructor
    · rintro (⟨rfl, rfl⟩ | ⟨slot, hget, hname⟩)
      · exact ⟨_, .inl ⟨rfl, rfl⟩, .inl ⟨rfl, rfl⟩⟩
      · exact ⟨slot, .inr hget, .inr hname⟩
    · -- an old schema is not of the new lazy, and the new schema not of an old one
      rintro ⟨slot, ⟨rfl, rfl⟩ | hget, ⟨hslot, rfl⟩ | hname⟩
      · exact .inl ⟨rfl, rfl⟩
      · exact absurd (lt_size_of_name? hname) (Nat.lt_irrefl _)
      · exact absurd (h.lazies handle slot hget) (hslot ▸ Nat.lt_irrefl _)
      · exact .inr ⟨slot, hget, hname⟩

/-- The target of a lazy. -/
theorem Arena.fill (h : Arena definitions draft) {target : SchemaId}
    (htarget : target < draft.graph.size) (slot : LazyId) :
    Arena definitions { draft with graph := draft.graph.fill slot target } := by
  have hname := draft.graph.name?_fill slot target
  have hsize := draft.graph.lazies_size_fill slot target
  -- only targets change; names, handles and the number of lazies are what they were
  refine ⟨h.below, ?_, ?_, ?_, ?_, ?_, ?_⟩
  · exact fun id other hget => hsize ▸ h.lazies id other hget
  · intro other target' htarget'
    rcases draft.graph.target?_of_fill htarget' with rfl | hold
    · exact htarget
    · exact h.targets other target' hold
  · exact fun other name hn => h.defined other name ((hname other).symm.trans hn)
  · intro one other name hone hother
    exact h.distinct one other name ((hname one).symm.trans hone) ((hname other).symm.trans hother)
  · exact fun other hother => h.entry other (hsize ▸ hother)
  · intro identifier handle
    rw [h.handles]
    exact exists_congr fun other => and_congr_right' (by rw [hname])

/-! ## Builds -/

variable {depth : Nat}

/-- The build keeps the invariant, and what it returns is in the graph. -/
structure Places (definitions : DefinitionMap) {α : Type} (ids : α → List SchemaId)
    (build : Build α) :
    Prop where
  keeps : Keeps (Arena definitions) build
  bound : ∀ {draft built : SchemaDraft} {value : α}, Arena definitions draft →
    build.run.run draft = (.ok value, built) → ∀ id ∈ ids value, id < built.graph.size

theorem places_buildAll {nodes : List Node}
    (h : ∀ node ∈ nodes, Places definitions (fun id => [id]) (buildWithin definitions depth node)) :
    Places definitions id (buildAll definitions depth nodes) := by
  refine ⟨keeps_buildAll fun node hn => (h node hn).keeps, ?_⟩
  induction nodes with
  | nil =>
    intro draft built ids _ hrun
    rw [buildAll] at hrun
    cases hrun
    exact fun id hid => absurd hid List.not_mem_nil
  | cons node rest ih =>
    intro draft built ids harena hrun
    rw [buildAll] at hrun
    obtain ⟨first, d₁, hfirst, hrun⟩ := run_bind_eq_ok hrun
    obtain ⟨others, d₂, hothers, hrun⟩ := run_bind_eq_ok hrun
    cases hrun
    have hnode := h node List.mem_cons_self
    have hbound := hnode.bound harena hfirst first List.mem_cons_self
    -- what the rest adds does not move the first
    have hwithin : Within d₁ built :=
      (keeps_buildAll fun other _ => keeps_within d₁ depth other).of_run (.refl d₁) hothers
    have hrest := ih (fun other ho => h other (List.mem_cons_of_mem _ ho))
      (hnode.keeps.of_run harena hfirst) hothers
    exact List.forall_mem_cons.mpr ⟨Nat.lt_of_lt_of_le hbound hwithin.grows.size, hrest⟩

/-- A reference is placed if the bodies of definitions are, built one level deeper. -/
theorem places_reference {identifier : String} {displayName : Option String}
    (hbody : ∀ fewer body, depth = fewer + 1 → definitions.node? identifier = some body →
      Places definitions (fun id => [id]) (buildWithin definitions fewer body)) :
    Places definitions (fun id => [id])
      (buildWithin definitions depth (.reference identifier displayName)) := by
  constructor
  · intro draft harena
    rcases hrun :
        (buildWithin definitions depth (.reference identifier displayName)).run.run draft with
      ⟨result, after⟩
    cases referenceRun hrun with
    | met | missing | tooDeep => exact harena
    | built new defined inner =>
      have hplaces := hbody _ _ rfl defined
      have hentered := harena.enter (mem_keys_of_node? defined) new
      have htarget := hplaces.bound hentered inner _ List.mem_cons_self
      exact (hplaces.keeps.of_run hentered inner).fill htarget _
    | failed new defined inner =>
      exact (hbody _ _ rfl defined).keeps.of_run
        (harena.enter (mem_keys_of_node? defined) new) inner
  · intro draft after id harena hrun
    rw [List.forall_mem_singleton]
    cases referenceRun hrun with
    | met found =>
      obtain ⟨slot, hget, -⟩ := (harena.handles identifier id).mp found
      exact lt_size_of_get_lazy hget
    | @built depth _ _ built new defined inner =>
      -- the handle was added before the body, and adding the body does not move it
      have hwithin : Within (draft.enter identifier) built :=
        (keeps_within _ depth _).of_run (.refl _) inner
      have hentered : draft.graph.size < (draft.enter identifier).graph.size := by
        rw [size_enter]
        exact Nat.lt_succ_self _
      exact Nat.lt_of_lt_of_le hentered hwithin.grows.size

theorem places_buildWithin (definitions : DefinitionMap) (depth : Nat) (node : Node) :
    Places definitions (fun id => [id]) (buildWithin definitions depth node) := by
  induction depth, node using inductionOnBuilds definitions with
  | reference depth identifier displayName ih => exact places_reference ih
  | single depth member ih =>
    rw [buildWithin]
    exact ih
  | level depth node href hsingle ih =>
    have hparts := places_buildAll ih
    rw [buildWithin_eq href hsingle]
    -- the schema goes over those of its parts, which are all there
    constructor
    · intro draft harena
      rw [run_bind]
      rcases hrun : (buildAll definitions depth node.schemaParts).run.run draft with
        ⟨⟨halt⟩ | ⟨ids⟩, built⟩
      · exact hparts.keeps.of_run harena hrun
      · refine (hparts.keeps.of_run harena hrun).add (Schema.overParts_ne_lazy node ids) ?_
        intro child hc
        exact hparts.bound harena hrun child (Schema.children_overParts node ids hc)
    · intro draft built id _ hrun
      obtain ⟨ids, d₁, -, hrun⟩ := run_bind_eq_ok hrun
      cases hrun
      rw [List.forall_mem_singleton]
      exact Nat.lt_of_lt_of_eq (Nat.lt_succ_self _) (size_add ..).symm

end SchemaDraft

end TypeGraph
