import TypeGraph.Proofs.SchemaGraph.Assembly
import TypeGraph.Proofs.SchemaGraph.Following
import TypeGraph.Proofs.SchemaGraph.Imports

/-!
# Reading any graph

A graph that was built by hand may share schemas, may name several lazies alike and may leave some
of them without a target. Reading it ends all the same, with nodes or at a schema from which no node
can be made: schemas are made of earlier ones, and a lazy is entered once. `ReadAs` is what a schema
is read as under the identifiers of the registered lazies; `Collected` says that what is registered
was read like this, as far as it is not being read.

Main results:

* `SchemaGraph.ends_importWithin`: what reading a schema leaves behind, or why it fails.
* `SchemaGraph.Collected.readAs_of_leads`: when nothing is being read any more, all schemas are read
  that can be reached.
-/

namespace TypeGraph.SchemaGraph

open Relation

variable {graph : SchemaGraph} {id next start place : SchemaId} {slot : LazyId}

/-! ## Graphs -/

/-- What can be built by adding schemas and lazies and filling the lazies: a schema is made of
earlier ones, and lazies and targets are there. -/
structure Built (graph : SchemaGraph) : Prop where
  below : ∀ id, ∀ child ∈ (graph.get id).children, child < id
  slots : ∀ id slot, graph.get id = .lazy slot → slot < graph.lazies.size
  targets : ∀ slot target, graph.target? slot = some target → target < graph.size

theorem Built.empty : Built {} where
  below _ _ h := absurd h List.not_mem_nil
  slots _ _ h := by cases h
  targets _ _ h := by cases h

theorem Built.add (h : graph.Built) (schema : Schema)
    (hbelow : ∀ child ∈ schema.children, child < graph.size)
    (hslots : ∀ slot, schema = .lazy slot → slot < graph.lazies.size) :
    (graph.add schema).2.Built where
  below id child hc := by
    rw [get_add] at hc
    split at hc
    · rename_i heq
      exact heq ▸ hbelow child hc
    · exact h.below id child hc
  slots id slot hs := by
    rw [get_add] at hs
    split at hs
    · exact hslots slot hs
    · exact h.slots id slot hs
  targets slot target ht := by
    rw [size_add]
    exact Nat.lt_succ_of_lt (h.targets slot target ht)

theorem Built.addLazy (h : graph.Built) (name : String) : (graph.addLazy name).2.Built where
  below := h.below
  slots id slot hs := by
    show slot < (graph.lazies.push _).size
    rw [Array.size_push]
    exact Nat.lt_succ_of_lt (h.slots id slot hs)
  targets slot target ht := h.targets slot target (by rwa [target?_addLazy] at ht)

theorem Built.fill (h : graph.Built) (slot : LazyId) {target : SchemaId}
    (htarget : target < graph.size) :
    (graph.fill slot target).Built where
  below := h.below
  slots id other hs := by
    show other < (graph.lazies.modify slot _).size
    rw [Array.size_modify]
    exact h.slots id other hs
  targets other target' ht := by
    rcases target?_of_fill graph ht with heq | ht
    · exact heq ▸ htarget
    · exact h.targets other target' ht

/-- A lazy has a target, and a union, tuple or intersection has a member. -/
structure Complete (graph : SchemaGraph) (id : SchemaId) : Prop where
  filled : ∀ slot, graph.get id = .lazy slot → ∃ target, graph.target? slot = some target
  populated : (graph.get id).Populated

/-- The first schema leads to the second in one step. -/
def Leads (graph : SchemaGraph) (id next : SchemaId) : Prop := next ∈ graph.successors id

theorem leads_iff : graph.Leads id next ↔
    next ∈ (graph.get id).children ∨ ∃ slot, graph.get id = .lazy slot ∧
    graph.target? slot = some next := by
  unfold Leads successors target?
  generalize graph.get id = schema
  cases schema <;> simp [Schema.children]

/-- The schema leads to the lazy. -/
def Meets (graph : SchemaGraph) (start : SchemaId) (slot : LazyId) : Prop :=
  ∃ place, ReflTransGen graph.Leads start place ∧ graph.get place = .lazy slot

theorem Meets.of_leads (h : graph.Leads start next) (hmeets : graph.Meets next slot) :
    graph.Meets start slot := by
  obtain ⟨place, hsteps, hplace⟩ := hmeets
  exact ⟨place, .head h hsteps, hplace⟩

/-! ## What schemas are read as -/

/-- What a schema is read as while the lazies have these identifiers. -/
inductive ReadAs (graph : SchemaGraph)
    (identifiers : LazyId → Option String) : SchemaId → Node → Prop where
  | level {id : SchemaId} {parts : List Node} {node : Node}
      (length : parts.length = (graph.get id).children.length)
      (inner : ∀ child part, (child, part) ∈ (graph.get id).children.zip parts →
        ReadAs graph identifiers child part)
      (assembled : (graph.get id).assemble parts = .ok node) : ReadAs graph identifiers id node
  | deferred {id : SchemaId} {slot : LazyId} {identifier : String}
      (schema : graph.get id = .lazy slot)
      (named : identifiers slot = some identifier) :
      ReadAs graph identifiers id (.reference identifier (some (graph.lazyName slot)))

theorem ReadAs.mono {identifiers identifiers' : LazyId → Option String} {node : Node}
    (h : ReadAs graph identifiers id node)
    (hle : ∀ slot identifier, identifiers slot = some identifier →
      identifiers' slot = some identifier) :
    ReadAs graph identifiers' id node := by
  induction h with
  | level length _ assembled ih => exact .level length ih assembled
  | deferred schema named => exact .deferred schema (hle _ _ named)

/-! ## The registry -/

variable {registry registry' registry₁ : Registry LazyId}

/-- What has been read so far. The definition of a lazy has its name for a label; if it is not
pending, its body is what the target of the lazy is read as. -/
structure Collected (graph : SchemaGraph) (registry : Registry LazyId) : Prop where
  sound : registry.Sound
  slot_lt : ∀ slot identifier, registry.identifier? slot = some identifier →
      slot < graph.lazies.size
  definition : ∀ slot identifier, registry.identifier? slot = some identifier →
    ∃ body, registry.definitions.get? identifier = some ⟨body, some (graph.lazyName slot)⟩ ∧
      (identifier ∈ registry.pending ∨
        ∃ target, graph.target? slot = some target ∧ graph.ReadAs registry.identifier? target body)

theorem Collected.empty : Collected graph .empty where
  sound := .start false
  slot_lt _ _ h := by cases h
  definition _ _ h := by cases h

theorem Collected.lookup_eq (h : Collected graph registry) {identifier : String}
    (hi : registry.identifier? slot = some identifier) :
    registry.lookup slot = some (.reference identifier (some (graph.lazyName slot))) := by
  obtain ⟨body, hd, -⟩ := h.definition slot identifier hi
  simp only [Registry.lookup, hi, Option.bind_eq_bind, Option.bind_some, DefinitionMap.reference?,
    hd, Option.map_some]

theorem Collected.register (h : Collected graph registry) (hslot : slot < graph.lazies.size)
    (hnew : registry.identifier? slot = none) :
    Collected graph (registry.register slot (some (graph.lazyName slot))).2 := by
  have hextends := Registry.Extends.register registry (some (graph.lazyName slot)) hnew
  refine ⟨h.sound.step (.register _ hnew), ?_, ?_⟩
  · intro other identifier hi
    rw [Registry.identifier?_register] at hi
    split at hi
    · rename_i heq
      exact heq ▸ hslot
    · exact h.slot_lt other identifier hi
  · intro other identifier hi
    -- the new lazy has a placeholder, the others have what they had
    rw [Registry.identifier?_register] at hi
    split at hi
    · rename_i heq
      cases hi
      refine ⟨.unknown, ?_, .inl List.mem_cons_self⟩
      rw [Registry.get?_register, if_pos rfl, heq]
    · obtain ⟨body, hd, hbody⟩ := h.definition other identifier hi
      refine ⟨body, hextends.definitions hd, ?_⟩
      rcases hbody with hpending | ⟨target, htarget, hread⟩
      · exact .inl (List.mem_cons_of_mem _ hpending)
      · exact .inr ⟨target, htarget, hread.mono fun _ _ => hextends.identifiers⟩

/-- The body of a lazy is what its target is read as. -/
theorem Collected.complete (h : Collected graph registry) {identifier : String} {target : SchemaId}
    {node : Node} (hi : registry.identifier? slot = some identifier)
    (htarget : graph.target? slot = some target)
    (hread : graph.ReadAs registry.identifier? target node) :
    Collected graph (registry.complete identifier node) := by
  refine ⟨h.sound.step (.complete ..), h.slot_lt, ?_⟩
  intro other identifier' ho
  rw [Registry.identifier?_complete] at ho
  obtain ⟨body, hd, hbody⟩ := h.definition other identifier' ho
  rw [Registry.get?_complete]
  by_cases heq : identifier' = identifier
  · -- the identifier belongs to one lazy
    subst heq
    cases h.sound.valid.key_unique hi ho
    refine ⟨node, ?_, .inr ⟨target, htarget, hread⟩⟩
    rw [if_pos rfl, hd, Option.map_some]
  · rw [if_neg heq]
    refine ⟨body, hd, ?_⟩
    rcases hbody with hpending | hbody
    · exact .inl ((Registry.mem_pending_complete ..).mpr ⟨hpending, heq⟩)
    · exact .inr hbody

/-! ## When nothing is pending -/

section

variable (h : Collected graph registry) (hpending : registry.pending = [])

include h hpending

theorem Collected.exists_body {identifier : String}
    (hi : registry.identifier? slot = some identifier) :
    ∃ target body, graph.target? slot = some target ∧
      registry.definitions.get? identifier = some ⟨body, some (graph.lazyName slot)⟩ ∧
      graph.ReadAs registry.identifier? target body := by
  obtain ⟨body, hd, hbody⟩ := h.definition slot identifier hi
  rcases hbody with hmem | ⟨target, htarget, hread⟩
  · rw [hpending] at hmem
    exact absurd hmem List.not_mem_nil
  · exact ⟨target, body, htarget, hd, hread⟩

/-- What is read is complete. -/
theorem Collected.complete_of_readAs {node : Node}
    (hread : graph.ReadAs registry.identifier? id node) : graph.Complete id := by
  -- a level that could be put together has members, and a lazy that was read has a target
  cases hread with
  | level length inner assembled =>
    refine ⟨?_, ?_⟩
    · intro slot hslot
      rw [hslot] at assembled
      cases assembled
    · by_contra hnot
      obtain ⟨error, herror⟩ := Schema.error_of_not_populated hnot length
      rw [herror] at assembled
      cases assembled
  | @deferred _ slot identifier schema named =>
    obtain ⟨target, -, htarget, -⟩ := h.exists_body hpending named
    refine ⟨?_, ?_⟩
    · intro other hother
      cases schema.symm.trans hother
      exact ⟨target, htarget⟩
    · rw [schema]
      trivial

/-- What can be reached from a schema that is read is read as well. -/
theorem Collected.readAs_of_leads {node : Node}
    (hread : graph.ReadAs registry.identifier? start node)
    (hleads : ReflTransGen graph.Leads start place) :
    ∃ node, graph.ReadAs registry.identifier? place node := by
  induction hleads with
  | refl => exact ⟨node, hread⟩
  | @tail middle next _ hstep ih =>
    obtain ⟨node, hread⟩ := ih
    cases hread with
    | @level _ parts _ length inner assembled =>
      rcases leads_iff.mp hstep with hchild | ⟨slot, hslot, -⟩
      · -- every child has a part
        obtain ⟨part, hpart⟩ := exists_mem_zip (Nat.le_of_eq length.symm) hchild
        exact ⟨part, inner next part hpart⟩
      · rw [hslot] at assembled
        cases assembled
    | @deferred _ slot identifier schema named =>
      obtain ⟨target, body, htarget, -, hbody⟩ := h.exists_body hpending named
      rcases leads_iff.mp hstep with hchild | ⟨other, hother, hnext⟩
      · rw [schema] at hchild
        exact absurd hchild List.not_mem_nil
      · cases schema.symm.trans hother
        cases htarget.symm.trans hnext
        exact ⟨body, hbody⟩

end

/-! ## How an import ends -/

/-- What an import leaves behind that began at the schemas. -/
structure Collects (graph : SchemaGraph) (registry registry' : Registry LazyId)
    (starts : List SchemaId) :
    Prop where
  collected : Collected graph registry'
  growth : registry.Extends registry'
  pending : registry'.pending ⊆ registry.pending
  reached : ∀ slot identifier, registry'.identifier? slot = some identifier →
    registry.identifier? slot = some identifier ∨ ∃ start ∈ starts, graph.Meets start slot

/-- An import that began at the schemas ends with what they are read as, or at a schema that is not
complete. -/
inductive Ends (graph : SchemaGraph) (registry : Registry LazyId)
    (starts : List SchemaId) {α : Type}
    (Reads : (LazyId → Option String) → α → Prop) : Except Halt α × Registry LazyId → Prop where
  | read {value : α} {registry' : Registry LazyId}
      (collects : Collects graph registry registry' starts)
      (reads : Reads registry'.identifier? value) :
          Ends graph registry starts Reads (.ok value, registry')
  | failed {start place : SchemaId} {error : Error} {registry' : Registry LazyId}
      (mem : start ∈ starts)
      (leads : ReflTransGen graph.Leads start place) (incomplete : ¬ graph.Complete place) :
      Ends graph registry starts Reads (.error (.failed error), registry')

section

variable {starts : List SchemaId}

theorem Collects.refl (h : Collected graph registry) (starts : List SchemaId) :
    Collects graph registry registry starts :=
  ⟨h, .refl _, List.Subset.refl _, fun _ _ hi => .inl hi⟩

theorem Collects.trans {starts' : List SchemaId} (h : Collects graph registry registry₁ starts)
    (h' : Collects graph registry₁ registry' starts') :
    Collects graph registry registry' (starts ++ starts') where
  collected := h'.collected
  growth := h.growth.trans h'.growth
  pending := List.Subset.trans h'.pending h.pending
  reached slot identifier hi := by
    rcases h'.reached slot identifier hi with hi | ⟨start, hs, hmeets⟩
    · rcases h.reached slot identifier hi with hi | ⟨start, hs, hmeets⟩
      · exact .inl hi
      · exact .inr ⟨start, List.mem_append_left _ hs, hmeets⟩
    · exact .inr ⟨start, List.mem_append_right _ hs, hmeets⟩

/-- An import may as well be said to have begun at a schema that leads to where it began. -/
theorem Collects.of_leads (h : Collects graph registry registry' starts)
    (hleads : ∀ next ∈ starts, graph.Leads start next) :
    Collects graph registry registry' [start] where
  collected := h.collected
  growth := h.growth
  pending := h.pending
  reached slot identifier hi := by
    rcases h.reached slot identifier hi with hi | ⟨next, hn, hmeets⟩
    · exact .inl hi
    · exact .inr ⟨start, List.mem_cons_self, hmeets.of_leads (hleads next hn)⟩

/-- A lazy that is new is read by reading its target. -/
theorem Collects.entered (hslot : graph.get id = .lazy slot)
    (hnew : registry.identifier? slot = none) {target : SchemaId}
    (htarget : graph.target? slot = some target) {node : Node}
    (hinner : Collects graph (registry.register slot (some (graph.lazyName slot))).2
      registry' [target])
    (hread : graph.ReadAs registry'.identifier? target node) :
    Collects graph registry
      (registry'.complete (registry.freeIdentifier (some (graph.lazyName slot))) node) [id] := by
  have hregistered :=
    (Registry.identifier?_register registry slot (some (graph.lazyName slot)) slot).trans
    (if_pos rfl)
  have hi := hinner.growth.identifiers hregistered
  have hextends :=
    (Registry.Extends.register registry (some (graph.lazyName slot)) hnew).trans hinner.growth
  refine ⟨hinner.collected.complete hi htarget hread, ?_, ?_, ?_⟩
  · exact hextends.complete (registry.freeIdentifier_not_mem _) _
  · intro other ho
    obtain ⟨ho, hne⟩ := (Registry.mem_pending_complete ..).mp ho
    exact (List.mem_cons.mp (hinner.pending ho)).resolve_left hne
  · intro other identifier ho
    rw [Registry.identifier?_complete] at ho
    rcases hinner.reached other identifier ho with ho | ⟨next, hn, hmeets⟩
    · rw [Registry.identifier?_register] at ho
      split at ho
      · rename_i heq
        exact .inr ⟨id, List.mem_cons_self, id, .refl, heq ▸ hslot⟩
      · exact .inl ho
    · obtain rfl := List.mem_singleton.mp hn
      have hleads : graph.Leads id next := leads_iff.mpr (.inr ⟨slot, hslot, htarget⟩)
      exact .inr ⟨id, List.mem_cons_self, hmeets.of_leads hleads⟩

end

/-! ## Reading -/

/-- There are levels for what the schema is made of and for the lazies that are not registered. -/
def Within (graph : SchemaGraph) (registry : Registry LazyId) (depth : Nat) (id : SchemaId) :
    Prop :=
  graph.remaining registry * (graph.size + 1) + id < depth

theorem Within.of_extends {depth : Nat} (h : graph.Within registry depth id)
    (hextends : registry.Extends registry') (hvalid : registry.Valid) (hvalid' : registry'.Valid) :
    graph.Within registry' depth id := by
  have hremaining : graph.remaining registry' ≤ graph.remaining registry :=
    remaining_le hextends hvalid hvalid'
  have hle := Nat.mul_le_mul_right (graph.size + 1) hremaining
  unfold Within at h ⊢
  omega

/-- Schemas are read one after the other if each of them is. -/
theorem ends_mapM {depth : Nat} {ids : List SchemaId}
    (heach : ∀ registry, ∀ id ∈ ids, Collected graph registry → graph.Within registry depth id →
      Ends graph registry [id] (fun identifiers => graph.ReadAs identifiers id)
        ((graph.importWithin depth id).run.run registry))
    (h : Collected graph registry) (hdepth : ∀ id ∈ ids, graph.Within registry depth id) :
    Ends graph registry ids (fun identifiers => List.Forall₂ (graph.ReadAs identifiers) ids)
      ((ids.mapM (graph.importWithin depth)).run.run registry) := by
  induction ids generalizing registry with
  | nil => exact .read (.refl h []) .nil
  | cons id rest ih =>
    rw [List.mapM_cons]
    have hfirst := heach registry id List.mem_cons_self h (hdepth id List.mem_cons_self)
    generalize hrun : (graph.importWithin depth id).run.run registry = out at hfirst
    cases hfirst with
    | failed mem leads incomplete =>
      rw [run_bind_of_error hrun]
      exact .failed (List.mem_cons.mpr (.inl (List.mem_singleton.mp mem))) leads incomplete
    | @read node r₁ collects reads =>
      rw [run_bind_of_eq hrun]
      have hrest := ih (fun registry other ho => heach registry other (List.mem_cons_of_mem _ ho))
        collects.collected fun other ho =>
          (hdepth other (List.mem_cons_of_mem _ ho)).of_extends collects.growth
          h.sound.valid collects.collected.sound.valid
      generalize hrun' : (rest.mapM (graph.importWithin depth)).run.run r₁ = out at hrest
      cases hrest with
      | failed mem leads incomplete =>
        rw [run_bind_of_error hrun']
        exact .failed (List.mem_cons_of_mem _ mem) leads incomplete
      | @read nodes r₂ collects' reads' =>
        rw [run_bind_of_eq hrun']
        -- what was read first stays as it is while the rest is read
        exact .read (collects.trans collects')
          (.cons (reads.mono fun _ _ => collects'.growth.identifiers) reads')

/-- A lazy that is new is read as its target is, once it is registered. -/
theorem ends_entered (h : Collected graph registry) (hslot : graph.get id = .lazy slot)
    (hnew : registry.identifier? slot = none) {depth : Nat}
    (hinner : ∀ target, graph.target? slot = some target →
      Ends graph (registry.register slot (some (graph.lazyName slot))).2 [target]
        (fun identifiers => graph.ReadAs identifiers target)
        ((graph.importWithin depth target).run.run
          (registry.register slot (some (graph.lazyName slot))).2)) :
    Ends graph registry [id] (fun identifiers => graph.ReadAs identifiers id)
      ((graph.importWithin (depth + 1) id).run.run registry) := by
  have hlookup := h.sound.valid.lookup_eq_none_iff.mpr hnew
  rw [importWithin, hslot]
  dsimp only
  cases htarget : graph.target? slot with
  | none =>
    have hrun :
        (orHalt (.error (.unresolvedLazy slot)) >>= graph.importWithin depth : Import Node).run.run
        (registry.register slot (some (graph.lazyName slot))).2 =
          (.error (.failed (.unresolvedLazy slot)),
          (registry.register slot (some (graph.lazyName slot))).2) := rfl
    rw [lazyTarget_eq_error htarget, run_intern_of_error hlookup hrun]
    refine .failed List.mem_cons_self .refl fun hcomplete => ?_
    obtain ⟨target, ht⟩ := hcomplete.filled slot hslot
    rw [htarget] at ht
    cases ht
  | some target =>
    have hleads : graph.Leads id target := leads_iff.mpr (.inr ⟨slot, hslot, htarget⟩)
    have hends := hinner target htarget
    rw [lazyTarget_eq htarget]
    change Ends graph registry [id] _
      ((Registry.intern slot _ (graph.importWithin depth target)).run.run registry)
    generalize hrun : (graph.importWithin depth target).run.run _ = out at hends
    cases hends with
    | failed mem leads incomplete =>
      rw [run_intern_of_error hlookup hrun]
      exact .failed List.mem_cons_self (.head hleads (List.mem_singleton.mp mem ▸ leads)) incomplete
    | @read node r₁ collects reads =>
      rw [run_intern_of_new hlookup hrun]
      -- the identifier that was given out is still that of the lazy
      have hidentifier := collects.growth.identifiers
        ((Registry.identifier?_register registry slot (some (graph.lazyName slot)) slot).trans
          (if_pos rfl))
      exact .read (.entered hslot hnew htarget collects reads) (.deferred hslot hidentifier)

/-- Any other schema is read when what it is made of has been read, if a node can be made of
that. -/
theorem ends_level (hplain : ∀ slot, graph.get id ≠ .lazy slot) {depth : Nat}
    (hparts : Ends graph registry (graph.get id).children
      (fun identifiers => List.Forall₂ (graph.ReadAs identifiers) (graph.get id).children)
      (((graph.get id).children.mapM (graph.importWithin depth)).run.run registry)) :
    Ends graph registry [id] (fun identifiers => graph.ReadAs identifiers id)
      ((graph.importWithin (depth + 1) id).run.run registry) := by
  have hleads : ∀ child ∈ (graph.get id).children, graph.Leads id child :=
    fun child hc => leads_iff.mpr (.inl hc)
  rw [importWithin_eq hplain]
  generalize hrun : ((graph.get id).children.mapM (graph.importWithin depth)).run.run registry =
    out at hparts
  -- what fails inside fails the level; what is read is put together, unless there are no members
  cases hparts with
  | failed mem leads incomplete =>
    rw [run_bind_of_error hrun]
    exact .failed List.mem_cons_self (.head (hleads _ mem) leads) incomplete
  | @read parts r₁ collects reads =>
    rw [run_bind_of_eq hrun]
    obtain ⟨hlength, hinner⟩ := List.forall₂_iff_zip.mp reads
    cases hassemble : (graph.get id).assemble parts with
    | ok node =>
      exact .read (collects.of_leads hleads) (.level hlength.symm (fun _ _ => hinner) hassemble)
    | error error =>
      refine .failed List.mem_cons_self .refl fun hcomplete => ?_
      obtain ⟨node, hnode⟩ := Schema.exists_assemble hplain hcomplete.populated hlength.symm
      rw [hassemble] at hnode
      cases hnode

/-- Reading a schema ends with its node, or at a schema that is not complete. -/
theorem ends_importWithin (hbuilt : graph.Built) {depth : Nat} (hid : id < graph.size)
    (h : Collected graph registry) (hdepth : graph.Within registry depth id) :
    Ends graph registry [id] (fun identifiers => graph.ReadAs identifiers id)
      ((graph.importWithin depth id).run.run registry) := by
  -- induction on the depth: schemas below have smaller ids, and a lazy that is entered is
  -- registered
  induction depth generalizing registry id with
  | zero => exact absurd hdepth (Nat.not_lt_zero _)
  | succ depth ih =>
    rcases graph.lazy_or_plain id with ⟨slot, hslot⟩ | hplain
    · cases hi : registry.identifier? slot with
      | some identifier =>
        rw [importWithin, hslot]
        dsimp only
        rw [run_intern_of_lookup (h.lookup_eq hi)]
        exact .read (.refl h [id]) (.deferred hslot hi)
      | none =>
        have hlt := hbuilt.slots id slot hslot
        refine ends_entered h hslot hi fun target htarget => ?_
        have hremaining := remaining_register h.slot_lt hlt hi (some (graph.lazyName slot))
        have hbound := hbuilt.targets slot target htarget
        refine ih hbound (h.register hlt hi) ?_
        unfold Within at hdepth
        rw [← hremaining] at hdepth
        exact levels_of_entered hbound hdepth
    · have hbelow : ∀ child ∈ (graph.get id).children, graph.Within registry depth child := by
        intro child hc
        have hlt := Nat.add_lt_add_left (hbuilt.below id child hc)
          (graph.remaining registry * (graph.size + 1))
        exact Nat.lt_of_lt_of_le hlt (Nat.le_of_lt_succ hdepth)
      exact ends_level hplain
        (ends_mapM (fun registry child hc => ih ((hbuilt.below id child hc).trans hid)) h hbelow)

end TypeGraph.SchemaGraph
