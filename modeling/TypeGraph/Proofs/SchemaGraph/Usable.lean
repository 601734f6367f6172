import TypeGraph.JsonSchema.Document
import TypeGraph.Proofs.Definition.Resolve
import TypeGraph.Proofs.JsonSchema.Faults
import TypeGraph.Proofs.SchemaGraph.Arena
import TypeGraph.Proofs.SchemaGraph.Following
import TypeGraph.SchemaGraph.ToNode

/-!
# Usable schemas

A schema is usable if it can be resolved, written as a document and read back without meeting a lazy
that has no target. Where a builder is used several times, this is about what builds that fail leave
behind: a lazy that was entered and not filled, under a handle that later builds go by.

Main results:

* `SchemaGraph.usable_of_filled`: where all lazies are filled and none leads to lazies only, all
  schemas are usable.
* `SchemaDraft.usable_iff`: the schemas of all sequences of builds are usable exactly if no body
  mentions an unknown identifier and no definition leads to references only.
-/

namespace TypeGraph

namespace SchemaGraph

/-- Using the schema never comes to a lazy without a target, or without an end. -/
structure Usable (graph : SchemaGraph) (id : SchemaId) : Prop where
  resolve : ∀ slot, graph.resolve id ≠ .error (.unresolvedLazy slot)
  document : ∀ slot, graph.document id ≠ .error (.failed (.unresolvedLazy slot))
  toExtraction : ∀ slot, graph.toExtraction id ≠ .error (.failed (.unresolvedLazy slot))

variable {graph : SchemaGraph} {allowed : Error → Prop} {α β : Type}

/-! ## Where importing fails -/

/-- The import fails only for errors that are allowed. -/
def ImportFaults (allowed : Error → Prop) (visit : Import α) : Prop :=
  ∀ registry, Faults (HaltAllowed allowed) (visit.run.run registry).1

theorem ImportFaults.pure (value : α) : ImportFaults allowed (Pure.pure value : Import α) :=
  fun _ => Faults.pure value

theorem ImportFaults.bind {visit : Import α} {f : α → Import β} (h : ImportFaults allowed visit)
    (hf : ∀ value, ImportFaults allowed (f value)) : ImportFaults allowed (visit >>= f) := by
  intro registry
  have hvisit := h registry
  rw [ExceptT.run_bind, StateT.run_bind]
  rcases hrun : visit.run.run registry with ⟨⟨halt⟩ | ⟨value⟩, registry'⟩
  · intro error he
    rw [hrun] at hvisit
    cases he
    exact hvisit halt rfl
  · exact hf value registry'

theorem ImportFaults.mapM {ι : Type} {items : List ι} {f : ι → Import α}
    (h : ∀ item, ImportFaults allowed (f item)) : ImportFaults allowed (items.mapM f) := by
  induction items with
  | nil =>
    rw [List.mapM_nil]
    exact .pure _
  | cons item rest ih =>
    rw [List.mapM_cons]
    exact (h item).bind fun _ => ih.bind fun _ => .pure _

theorem ImportFaults.orHalt {result : Except Error α} (h : Faults allowed result) :
    ImportFaults allowed (orHalt result : Import α) := by
  intro registry
  cases result with
  | ok value => exact Faults.pure value
  | error error =>
    refine Faults.throw ?_
    intro other ho
    cases ho
    exact h error rfl

theorem ImportFaults.intern {slot : LazyId} {label : Option String} {resolve : Import Node}
    (h : ImportFaults allowed resolve) :
    ImportFaults allowed (Registry.intern slot label resolve : Import Node) := by
  unfold Registry.intern
  refine ImportFaults.bind (fun _ => Faults.pure _) fun registry => ?_
  cases registry.lookup slot with
  | some reference => exact .pure _
  | none =>
    refine ImportFaults.bind (fun _ => Faults.pure _) fun identifier => ?_
    refine h.bind fun body => ?_
    exact ImportFaults.bind (fun _ => Faults.pure _) fun _ => .pure _

theorem importFaults_importWithin (hmembers : ∀ kind, allowed (.emptyMembers kind))
    (htarget : ∀ id slot, graph.get id = .lazy slot → Faults allowed (graph.lazyTarget slot))
    (depth : Nat) (id : SchemaId) : ImportFaults allowed (graph.importWithin depth id) := by
  -- induction on the depth; every part is read with one level less
  induction depth generalizing id with
  | zero => exact fun _ => faults_endless
  | succ depth ih =>
    have hnodes {f : List Node → Except Error Node} (hf : ∀ nodes, Faults allowed (f nodes))
        (ids : List SchemaId) : ImportFaults allowed
          (do TypeGraph.orHalt (f (← ids.mapM (graph.importWithin depth))) : Import Node) :=
      (ImportFaults.mapM ih).bind fun nodes => .orHalt (hf nodes)
    rw [importWithin]
    cases hget : graph.get id with
    | primitive p => exact .pure _
    | literal value => exact .pure _
    | array element | set element | optional inner => exact (ih _).bind fun _ => .pure _
    | record key value | map key value =>
      exact (ih key).bind fun _ => (ih value).bind fun _ => .pure _
    | object properties =>
      refine ImportFaults.bind (.mapM fun property => ?_) fun _ => .pure _
      exact (ih property.2).bind fun _ => .pure _
    | union members | tuple elements | intersection members =>
      -- composites without members are the only error of their own
      refine hnodes (fun nodes => ?_) _
      cases nodes with
      | nil => exact .throw (hmembers _)
      | cons first rest => exact .pure _
    | function parameters returns =>
      refine (ImportFaults.mapM ih).bind fun _ => ?_
      refine ImportFaults.bind ?_ fun _ => .pure _
      cases returns with
      | none => exact .pure _
      | some returned => exact (ih returned).bind fun _ => .pure _
    | «lazy» slot =>
      exact .intern ((ImportFaults.orHalt (htarget id slot hget)).bind fun target => ih target)

/-! ## Where all lazies are filled -/

/-- The error is not about a lazy. -/
def NotLazy (error : Error) : Prop := ∀ slot, error ≠ .unresolvedLazy slot

theorem usable_of_filled
    (hrange : ∀ id slot, graph.get id = .lazy slot → slot < graph.lazies.size)
    (hfilled : ∀ slot < graph.lazies.size, ∃ target, graph.target? slot = some target)
    (hresolves : ∀ id, ∃ schema, graph.Resolves id schema) (id : SchemaId) : graph.Usable id := by
  have htarget : ∀ slot < graph.lazies.size, Faults NotLazy (graph.lazyTarget slot) := by
    intro slot hslot
    obtain ⟨target, htarget⟩ := hfilled slot hslot
    rw [lazyTarget_eq htarget]
    exact .pure target
  have hresolve : ∀ id, Faults NotLazy (graph.resolve id) := by
    intro id
    obtain ⟨schema, hschema⟩ := hresolves id
    rw [resolve_eq_ok_iff.mpr hschema]
    exact .pure schema
  refine ⟨?_, ?_, ?_⟩
  · exact fun slot he => hresolve id _ he slot rfl
  · -- documents are written by resolving schemas and reading targets of lazies
    have hallows : graph.Allows NotLazy := ⟨fun _ _ => Error.noConfusion, hresolve, htarget⟩
    exact fun slot he => faults_document_of_allows hallows id _ he _ rfl slot rfl
  · intro slot he
    have himport : ∀ depth, ImportFaults NotLazy (graph.importWithin depth id) := fun depth =>
      importFaults_importWithin (fun _ _ => Error.noConfusion)
        (fun id slot hget => htarget slot (hrange id slot hget)) depth id
    have himport := himport ((graph.lazies.size + 1) * (graph.size + 1)) .empty
    unfold toExtraction at he
    dsimp only at he
    rcases hrun : (graph.importWithin ((graph.lazies.size + 1) * (graph.size + 1)) id).run.run
      Registry.empty with ⟨⟨halt⟩ | ⟨root⟩, registry⟩
    · rw [hrun] at himport he
      cases he
      exact himport _ rfl _ rfl slot rfl
    · rw [hrun] at he
      cases he

end SchemaGraph

namespace SchemaDraft

open SchemaGraph

variable {definitions : DefinitionMap} {draft : SchemaDraft}

/-! ## Handles and definitions -/

/-- A schema that stands for a node is a lazy exactly if the node is a reference. -/
theorem represents_cases {graph : SchemaGraph} {id : SchemaId} {node : Node}
    (h : graph.Represents [id] [node]) :
    (node.kind ≠ .reference ∧ ∀ slot, graph.get id ≠ .lazy slot) ∨
      ∃ identifier displayName slot, node = .reference identifier displayName ∧
        graph.get id = .lazy slot ∧ graph.name? slot = some identifier := by
  cases h with
  | level _ _ level =>
    generalize graph.get id = schema at level
    cases level <;> exact .inl ⟨Kind.noConfusion, fun _ => Schema.noConfusion⟩
  | reference displayName _ schema name => exact .inr ⟨_, displayName, _, rfl, schema, name⟩

/-- The name that is shown does not matter to following a reference. -/
theorem resolves_displayName {identifier : String} {displayName other : Option String} {node : Node}
    (h : definitions.Resolves (.reference identifier displayName) node) :
    definitions.Resolves (.reference identifier other) node := by
  cases h with
  | stop kind => exact absurd rfl kind
  | follow body? resolves => exact .follow body? resolves

/-- Following a lazy ends exactly if following its definition does. -/
theorem resolves_iff (hwired : Wired definitions [] draft) {id : SchemaId} {slot : LazyId}
    {identifier : String} (hget : draft.graph.get id = .lazy slot)
    (hname : draft.graph.name? slot = some identifier) :
    (∃ schema, draft.graph.Resolves id schema) ↔
      ∃ node, definitions.normalize.Resolves (.reference identifier none) node := by
  constructor
  · rintro ⟨schema, h⟩
    -- induction on the lazies that are followed, each of which is that of a definition
    induction h generalizing slot identifier with
    | stop plain => exact absurd hget (plain slot)
    | follow deferred filled _ ih =>
      cases hget.symm.trans deferred
      obtain ⟨target, body, htarget, hbody, hrepresents⟩ := hwired.bodies hname List.not_mem_nil
      cases filled.symm.trans htarget
      -- the chain ends at the body, or goes on at the lazy of another definition
      rcases represents_cases hrepresents with
          ⟨hkind, -⟩ | ⟨next, displayName, slot', rfl, hget', hname'⟩
      · exact ⟨body, .follow hbody (.stop hkind)⟩
      · obtain ⟨node, hnode⟩ := ih hget' hname'
        exact ⟨node, .follow hbody (resolves_displayName hnode)⟩
  · rintro ⟨node, h⟩
    -- references on the way have display names of their own, so the name is generalized first
    obtain ⟨displayName, hreference⟩ :
        ∃ displayName, Node.reference identifier none = .reference identifier displayName :=
      ⟨none, rfl⟩
    rw [hreference] at h
    clear hreference
    generalize hreference : Node.reference identifier displayName = reference at h
    induction h generalizing id slot identifier displayName with
    | stop kind =>
      subst hreference
      exact absurd rfl kind
    | follow body? _ ih =>
      cases hreference
      obtain ⟨target, body, htarget, hbody, hrepresents⟩ := hwired.bodies hname List.not_mem_nil
      cases body?.symm.trans hbody
      rcases represents_cases hrepresents with
          ⟨-, hplain⟩ | ⟨next, other, slot', rfl, hget', hname'⟩
      · exact ⟨_, .follow hget htarget (.stop hplain)⟩
      · obtain ⟨schema, hschema⟩ := ih hget' hname' other rfl
        exact ⟨schema, .follow hget htarget hschema⟩

/-! ## Sessions -/

/-- The results of building the nodes one after the other, and the draft that is left. -/
def buildEach (definitions : DefinitionMap) (draft : SchemaDraft) :
    List Node → List (Except Halt SchemaId) × SchemaDraft
  | [] => ([], draft)
  | node :: rest =>
    let (result, draft) := draft.build definitions node
    let (results, draft) := buildEach definitions draft rest
    (result :: results, draft)

theorem buildEach_keeps {property : SchemaDraft → Prop}
    (hkeeps : ∀ node, Keeps property (buildWithin definitions definitions.size node))
    (hdraft : property draft) (nodes : List Node) :
    property (buildEach definitions draft nodes).2 := by
  induction nodes generalizing draft with
  | nil => exact hdraft
  | cons node rest ih => exact ih (hkeeps node draft hdraft)

/-- The arena is in order after all builds. -/
theorem arena_of_buildEach (definitions : DefinitionMap) (nodes : List Node) :
    Arena definitions (buildEach definitions {} nodes).2 :=
  buildEach_keeps (fun node => (places_buildWithin definitions definitions.size node).keeps)
    .empty nodes

/-! ### Definitions that are complete -/

theorem defined_of_closed
    (hclosed : ∀ identifier other, definitions.Refers identifier other → other ∈ definitions.keys)
    (identifier : String) (body : Node) (hbody : definitions.node? identifier = some body) :
    ∀ other ∈ body.mentions, other ∈ definitions.keys := fun other ho =>
  hclosed identifier other (DefinitionMap.refers_iff.mpr ⟨body, hbody, ho⟩)

/-- Where definitions mention definitions only, no build leaves a lazy unfilled. -/
theorem keeps_wired
    (hclosed : ∀ identifier other, definitions.Refers identifier other → other ∈ definitions.keys)
    (node : Node) :
    Keeps (fun draft => Known definitions draft ∧ Wired definitions [] draft)
      (buildWithin definitions definitions.size node) := by
  refine keeps_of_references ?_ ?_ node
  · exact fun draft schema _ h => ⟨h.1, h.2.add schema⟩
  · rintro identifier displayName draft ⟨hknown, hwired⟩
    by_cases hi : identifier ∈ definitions.keys
    · -- the reference is built to its end, so what it opens is closed
      have hready : Ready definitions definitions.size draft := ⟨hknown, Nat.le_add_right _ _⟩
      obtain ⟨id, draft', hrun, hready'⟩ :=
        builds_reference (defined_of_closed hclosed) identifier displayName hi draft hready
      rw [hrun]
      exact ⟨hready'.handles, (realizes_buildWithin _ _ hwired hrun).1.wired⟩
    · have hnone := Option.not_isSome_iff_eq_none.mp (mt DefinitionMap.node?_isSome_iff.mp hi)
      have hhandle : draft.handles.get? identifier = none :=
        OrderedMap.get?_eq_none_iff.mpr fun hm => hi (hknown hm)
      rw [run_reference]
      unfold afterReference
      rw [hhandle, hnone]
      exact ⟨hknown, hwired⟩

/-- Where no definition is missing or leads to references only, all schemas are usable. -/
theorem usable_buildEach
    (hclosed : ∀ identifier other, definitions.Refers identifier other → other ∈ definitions.keys)
    (hends : ∀ identifier ∈ definitions.keys, ∃ node,
      definitions.normalize.resolve (.reference identifier none) = .ok node)
    (nodes : List Node) (id : SchemaId) : (buildEach definitions {} nodes).2.graph.Usable id := by
  have hrange : InRange (buildEach definitions {} nodes).2 :=
    (arena_of_buildEach definitions nodes).lazies
  obtain ⟨hknown, hwired⟩ : Known definitions (buildEach definitions {} nodes).2 ∧
      Wired definitions [] (buildEach definitions {} nodes).2 :=
    buildEach_keeps (keeps_wired hclosed) ⟨List.nil_subset _, .empty⟩ nodes
  -- what is built for closed definitions is wired, so every lazy has a target; following it ends as
  -- the definition does
  refine usable_of_filled hrange ?_ ?_ id
  · intro slot hslot
    obtain ⟨name, hname⟩ := Option.isSome_iff_exists.mp (name?_isSome_iff.mpr hslot)
    obtain ⟨target, -, htarget, -⟩ := hwired.bodies hname List.not_mem_nil
    exact ⟨target, htarget⟩
  · intro id
    rcases lazy_or_plain (buildEach definitions {} nodes).2.graph id with ⟨slot, hget⟩ | hplain
    · obtain ⟨name, hname⟩ :=
        Option.isSome_iff_exists.mp (name?_isSome_iff.mpr (hrange id slot hget))
      obtain ⟨handle, hhandle, -⟩ := hwired.lazies hname
      obtain ⟨node, hnode⟩ := hends name (hknown (OrderedMap.mem_keys_iff.mpr ⟨handle, hhandle⟩))
      exact (resolves_iff hwired hget hname).mpr ⟨node, DefinitionMap.resolve_eq_ok_iff.mp hnode⟩
    · exact ⟨_, .stop hplain⟩

/-! ### Definitions that are not -/

/-- A lazy that is left unfilled is not resolved. -/
theorem resolve_eq_error_of_unfilled {graph : SchemaGraph} {id : SchemaId} {slot : LazyId}
    (hget : graph.get id = .lazy slot) (htarget : graph.target? slot = none) :
    graph.resolve id = .error (.unresolvedLazy slot) := by
  rw [resolve, follow_succ_of_lazy hget, lazyTarget_eq_error htarget]
  rfl

/-- A definition with an unknown identifier in its body is built in vain, and then taken for
built. -/
theorem exists_unresolved_of_missing {identifier other : String}
    (hrefers : definitions.Refers identifier other) (hother : other ∉ definitions.keys) :
    ∃ halt draft,
      buildEach definitions {} [.reference identifier none, .reference identifier none] =
        ([.error halt, .ok 0], draft) ∧
      draft.graph.resolve 0 = .error (.unresolvedLazy 0) := by
  obtain ⟨body, hbody, hmentions⟩ := DefinitionMap.refers_iff.mp hrefers
  have hmem := hrefers.mem_keys
  obtain ⟨depth, hdepth⟩ : ∃ depth, definitions.size = depth + 1 := by
    refine Nat.exists_eq_succ_of_ne_zero (Nat.ne_of_gt ?_)
    rw [← OrderedMap.length_keys]
    exact List.length_pos_of_mem hmem
  rcases hrun :
      (buildWithin definitions depth body).run.run (({} : SchemaDraft).enter identifier) with
    ⟨⟨halt⟩ | ⟨target⟩, built⟩
  · -- the definition keeps its handle, and the lazy stays as it was entered
    have hwithin : Within (({} : SchemaDraft).enter identifier) built := by
      have hkept : Within (({} : SchemaDraft).enter identifier) ((buildWithin definitions depth
          body).run.run (({} : SchemaDraft).enter identifier)).2 :=
        keeps_within _ depth body _ (.refl _)
      rwa [hrun] at hkept
    have hhandle : built.handles.get? identifier = some 0 :=
      hwithin.handles ((handle?_enter ..).trans (if_pos rfl))
    have hnew : ({} : SchemaDraft).handles.get? identifier = none := rfl
    have hfirst : ({} : SchemaDraft).build definitions (.reference identifier none) =
        (.error halt, built) := by
      rw [SchemaDraft.build, hdepth, run_reference]
      unfold afterReference
      rw [hnew, hbody]
      dsimp only
      rw [hrun]
    have hsecond : built.build definitions (.reference identifier none) = (.ok 0, built) := by
      rw [SchemaDraft.build, run_reference]
      unfold afterReference
      rw [hhandle]
    refine ⟨halt, built, ?_, ?_⟩
    · simp only [buildEach, hfirst, hsecond]
    · refine resolve_eq_error_of_unfilled ?_ ?_
      · exact (hwithin.grows.get Nat.zero_lt_one).trans (get_enter {} identifier)
      · exact hwithin.targets 0 Nat.zero_lt_one
  · -- the body would not have been built
    have hknown : Known definitions (({} : SchemaDraft).enter identifier) :=
      known_enter hmem rfl (List.nil_subset _)
    exact absurd (mentions_of_run hknown hrun other hmentions) hother

/-! ### The condition -/

/-- All schemas that a builder gives, in whatever order it is used and whichever builds fail, are
usable exactly if the definitions mention definitions only, and none of them leads to references
only. -/
theorem usable_iff (definitions : DefinitionMap) :
    (∀ nodes id, .ok id ∈ (buildEach definitions {} nodes).1 →
        (buildEach definitions {} nodes).2.graph.Usable id) ↔
      (∀ identifier other, definitions.Refers identifier other → other ∈ definitions.keys) ∧
        ∀ identifier ∈ definitions.keys, ∃ node,
          definitions.normalize.resolve (.reference identifier none) = .ok node := by
  constructor
  · intro h
    have hclosed : ∀ identifier other, definitions.Refers identifier other →
        other ∈ definitions.keys := by
      intro identifier other hrefers
      by_contra hother
      obtain ⟨halt, draft, hsession, hresolve⟩ := exists_unresolved_of_missing hrefers hother
      have husable := h [.reference identifier none, .reference identifier none] 0
      rw [hsession] at husable
      exact (husable (by simp)).resolve 0 hresolve
    refine ⟨hclosed, fun identifier hi => ?_⟩
    -- the schema of a reference is the lazy of the definition
    obtain ⟨id, draft, hrun, -⟩ :=
      builds_reference (defined_of_closed hclosed) identifier none hi {}
      (Ready.mk (List.nil_subset _) (Nat.le_add_right definitions.size _))
    obtain ⟨⟨hwired, -⟩, hrepresents⟩ := realizes_buildWithin _ _ .empty hrun
    rw [Node.normalize] at hrepresents
    have hsession : buildEach definitions {} [.reference identifier none] = ([.ok id], draft) := by
      simp only [buildEach, SchemaDraft.build, hrun]
    have husable := h [.reference identifier none] id
    rw [hsession] at husable
    rcases represents_cases hrepresents with ⟨hkind, -⟩ | ⟨_, _, slot, heq, hget, hname⟩
    · exact absurd rfl hkind
    · cases heq
      have hresolves : ∃ schema, draft.graph.Resolves id schema := by
        by_contra hnone
        obtain ⟨slot, herror⟩ := exists_error_of_resolve hnone
        exact (husable List.mem_cons_self).resolve slot herror
      obtain ⟨node, hnode⟩ := (resolves_iff hwired hget hname).mp hresolves
      exact ⟨node, DefinitionMap.resolve_eq_ok_iff.mpr hnode⟩
  · rintro ⟨hclosed, hends⟩ nodes id -
    exact usable_buildEach hclosed hends nodes id

/-- Arrays of something unknown. -/
def arraysOfUnknown : DefinitionMap := .ofList [("A", ⟨.array (.reference "Missing" none), none⟩)]

/-- What the first build of such an array leaves: a lazy that is not filled. -/
def unfilledArray : SchemaDraft := ⟨⟨#[.lazy 0], #[⟨"A", none⟩]⟩, .ofList [("A", 0)]⟩

/-- Asked for twice, a definition with an unknown identifier in its body fails and then succeeds,
with a schema that can neither be resolved nor written nor read back. -/
theorem arraysOfUnknown_unresolved :
    (buildEach arraysOfUnknown {} [.reference "A" none, .reference "A" none]).1 =
      [.error (.failed (.unresolvedReference "Missing")), .ok 0] ∧
    (buildEach arraysOfUnknown {} [.reference "A" none, .reference "A" none]).2.graph.resolve 0 =
      .error (.unresolvedLazy 0) ∧
    (buildEach arraysOfUnknown {} [.reference "A" none, .reference "A" none]).2.graph.document 0 =
      .error (.failed (.unresolvedLazy 0)) ∧
    (buildEach arraysOfUnknown {}
        [.reference "A" none, .reference "A" none]).2.graph.toExtraction 0 =
      .error (.failed (.unresolvedLazy 0)) := by
  have hfirst : SchemaDraft.build {} arraysOfUnknown (.reference "A" none) =
      (.error (.failed (.unresolvedReference "Missing")), unfilledArray) := by
    rw [build, buildWithin]
    show ((buildWithin arraysOfUnknown 0 (.array (.reference "Missing" none)) >>= _).run).run _ = _
    rw [buildWithin, buildWithin]
    rfl
  have hsecond : unfilledArray.build arraysOfUnknown (.reference "A" none) =
      (.ok 0, unfilledArray) := by
    rw [build, buildWithin]
    rfl
  have heach : buildEach arraysOfUnknown {} [.reference "A" none, .reference "A" none] =
      ([.error (.failed (.unresolvedReference "Missing")), .ok 0], unfilledArray) := by
    simp only [buildEach, hfirst, hsecond]
  rw [heach]
  refine ⟨rfl, ?_, ?_, ?_⟩
  · show unfilledArray.graph.resolve 0 = _
    rw [SchemaGraph.resolve]
    unfold SchemaGraph.follow
    rfl
  · -- the root is written as a reference to the lazy, and what the lazy stands for is missing
    show (unfilledArray.graph.renderLazies [0] [0] >>= _) = _
    rw [SchemaGraph.renderLazies, dif_pos (by decide)]
    rfl
  · show unfilledArray.graph.toExtraction 0 = _
    rfl

end SchemaDraft

end TypeGraph
