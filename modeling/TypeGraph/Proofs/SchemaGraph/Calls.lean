import TypeGraph.Proofs.SchemaGraph.Usable

/-!
# The builds within a build

The build of a node calls the builds of its parts, and that of a reference without a handle the one
of the body that it enters. What becomes of a lazy is told by the call that entered its definition:
the lazy is filled when the body is built, and if that fails it stays as it is, also in everything
that is built later.

Main results:

* `SchemaDraft.Stays.of_calls`: what follows a call within its caller leaves the lazies of the call
  alone.
* `SchemaDraft.enteredIn_of_run`: each lazy that a build adds belongs to a definition that is
  entered in it.
* `SchemaDraft.arena_buildEach`: the arena of a builder after any builds.
-/

namespace TypeGraph

namespace SchemaDraft

open SchemaGraph

/-! ## Calls -/

/-- The build of a node that starts with a draft. -/
structure Call where
  depth : Nat
  node : Node
  draft : SchemaDraft

/-- The result of the build and the draft that it leaves. -/
def Call.run (definitions : DefinitionMap) (call : Call) : Except Halt SchemaId × SchemaDraft :=
  (buildWithin definitions call.depth call.node).run.run call.draft

/-- The call enters the definition, and the inner one builds its body. -/
inductive Opens (definitions : DefinitionMap) : Call → String → Call → Prop
  | intro {depth : Nat} {identifier : String} {displayName : Option String} {body : Node}
      {draft : SchemaDraft} (new : draft.handles.get? identifier = none)
      (defined : definitions.node? identifier = some body) :
      Opens definitions ⟨depth + 1, .reference identifier displayName, draft⟩ identifier
        ⟨depth, body, draft.enter identifier⟩

/-- The first call makes the second. -/
inductive Calls (definitions : DefinitionMap) : Call → Call → Prop
  | body {call inner : Call} {identifier : String}
  (opens : Opens definitions call identifier inner) :
      Calls definitions call inner
  | single {depth : Nat} {member : Node} {draft : SchemaDraft} :
      Calls definitions ⟨depth, .union member [], draft⟩ ⟨depth, member, draft⟩
  /-- The parts before have been built. -/
  | part {depth : Nat} {node part : Node} {earlier later : List Node} {ids : List SchemaId}
      {draft draft' : SchemaDraft} (href : node.kind ≠ .reference) (hsingle : ¬ node.IsSingle)
      (parts : node.schemaParts = earlier ++ part :: later)
      (built : (buildAll definitions depth earlier).run.run draft = (.ok ids, draft')) :
      Calls definitions ⟨depth, node, draft⟩ ⟨depth, part, draft'⟩

/-- The call is made when the nodes are built one after the other. -/
def TakesPlace (definitions : DefinitionMap) (nodes : List Node) (call : Call) : Prop :=
  ∃ earlier node later, nodes = earlier ++ node :: later ∧
    Relation.ReflTransGen (Calls definitions)
      ⟨definitions.size, node, (buildEach definitions {} earlier).2⟩ call

variable {definitions : DefinitionMap} {depth : Nat} {draft draft' : SchemaDraft}

/-! ## What follows a call -/

/-- What was in the first draft is in the second: handles, schemas, names of lazies, and the targets
of those that were filled. -/
structure Later (draft draft' : SchemaDraft) : Prop where
  handles : ∀ {identifier : String} {handle : SchemaId},
    draft.handles.get? identifier = some handle → draft'.handles.get? identifier = some handle
  grows : draft.graph.Grows draft'.graph
  filled : ∀ {slot : LazyId} {target : SchemaId},
    draft.graph.target? slot = some target → draft'.graph.target? slot = some target

theorem Later.trans {draft'' : SchemaDraft} (h : Later draft draft') (h' : Later draft' draft'') :
    Later draft draft'' :=
  ⟨fun hh => h'.handles (h.handles hh), h.grows.trans h'.grows, fun ht => h'.filled (h.filled ht)⟩

theorem Within.later (h : Within draft draft') : Later draft draft' where
  handles := h.handles
  grows := h.grows
  filled htarget := (h.targets _ (lt_size_of_target? htarget)).trans htarget

theorem Later.lazies_le (h : Later draft draft') :
    draft.graph.lazies.size ≤ draft'.graph.lazies.size := by
  by_contra hlt
  -- a lazy past the end would have a name there
  have hsome := name?_isSome_iff.mpr (Nat.lt_of_not_le hlt)
  obtain ⟨name, hname⟩ := Option.isSome_iff_exists.mp hsome
  exact Nat.lt_irrefl _ (name?_isSome_iff.mp (Option.isSome_of_mem (h.grows.name hname)))

theorem Call.within (definitions : DefinitionMap) (call : Call) :
    Within call.draft (call.run definitions).2 :=
  keeps_within call.draft call.depth call.node call.draft (.refl _)

/-- Nothing that the call left is lost, and the lazies that it added are as it left them. -/
structure Stays (definitions : DefinitionMap) (call : Call) (final : SchemaDraft) : Prop where
  later : Later (call.run definitions).2 final
  own : ∀ slot, call.draft.graph.lazies.size ≤ slot →
      slot < (call.run definitions).2.graph.lazies.size →
    final.graph.target? slot = (call.run definitions).2.graph.target? slot

theorem Stays.of_within {call : Call} {final : SchemaDraft}
    (h : Within (call.run definitions).2 final) : Stays definitions call final :=
  ⟨h.later, fun slot _ hslot => h.targets slot hslot⟩

section

variable {call inner : Call} {identifier : String} (h : Opens definitions call identifier inner)

include h

/-- What becomes of a definition that is entered: if its body is built, that fills the lazy, and
nothing else happens after the body. -/
theorem Opens.run_eq :
    call.run definitions =
      match inner.run definitions with
      | (.ok target, built) => (.ok call.draft.graph.size,
          { built with graph := built.graph.fill call.draft.graph.lazies.size target })
      | (.error halt, built) => (.error halt, built) := by
  obtain ⟨new, defined⟩ := h
  -- there is no handle but a body, and depth for it, so the other outcomes of a reference are out
  unfold Call.run
  rw [run_reference]
  unfold afterReference
  rw [new, defined]
  rfl

theorem Opens.lazies_lt : call.draft.graph.lazies.size < inner.draft.graph.lazies.size := by
  obtain @⟨depth, identifier, displayName, body, draft, new, defined⟩ := h
  rw [lazies_size_enter]
  exact Nat.lt_succ_self _

/-- The lazy of the definition is named when the body is built. -/
theorem Opens.name?_run :
    (inner.run definitions).2.graph.name? call.draft.graph.lazies.size = some identifier := by
  refine (inner.within definitions).grows.name ?_
  obtain @⟨depth, identifier, displayName, body, draft, new, defined⟩ := h
  rw [name?_enter, if_pos rfl]

/-- The lazy has no target yet when the body has been built, or has failed. -/
theorem Opens.unfilled :
    (inner.run definitions).2.graph.target? call.draft.graph.lazies.size = none := by
  -- the body leaves it alone, as it was there before, and it was entered without a target
  rw [(inner.within definitions).targets _ h.lazies_lt]
  obtain @⟨depth, identifier, displayName, body, draft, new, defined⟩ := h
  rw [target?_enter, Option.eq_none_iff_forall_ne_some]
  intro target htarget
  exact Nat.lt_irrefl _ (lt_size_of_target? htarget)

/-- The lazy of a definition that is entered is filled exactly if the body is built. -/
theorem Opens.target?_run :
    (call.run definitions).2.graph.target? call.draft.graph.lazies.size =
      (inner.run definitions).1.toOption := by
  have hname := h.name?_run
  have hunfilled := h.unfilled
  rw [h.run_eq]
  rcases hrun : inner.run definitions with ⟨⟨halt⟩ | ⟨target⟩, built⟩
  · -- nothing is filled after a failure
    rw [hrun] at hunfilled
    exact hunfilled
  · rw [hrun] at hname
    exact (built.graph.target?_fill hname target _).trans (if_pos rfl)

/-- After the body, only the lazy of the definition is filled. -/
theorem Opens.stays : Stays definitions inner (call.run definitions).2 := by
  have hname := h.name?_run
  have hunfilled := h.unfilled
  have hlt := h.lazies_lt
  rw [h.run_eq]
  rcases hrun : inner.run definitions with ⟨⟨halt⟩ | ⟨target⟩, built⟩
  · refine .of_within ?_
    rw [hrun]
    exact .refl built
  · rw [hrun] at hunfilled hname
    have htarget := built.graph.target?_fill hname target
    constructor
    · rw [hrun]
      refine ⟨id, built.graph.grows_fill _ target, ?_⟩
      -- what is filled already is another lazy
      intro slot other hslot
      have hne : slot ≠ call.draft.graph.lazies.size := by
        rintro rfl
        cases hunfilled.symm.trans hslot
      exact (htarget slot).trans ((if_neg hne).trans hslot)
    · -- the lazies that the body has added came after the one of the definition
      intro slot hslot _
      rw [hrun]
      have hne := Nat.ne_of_gt (Nat.lt_of_lt_of_le hlt hslot)
      exact (htarget slot).trans (if_neg hne)

end

/-- What holds after one of several builds holds after all of them, if they keep it. -/
theorem keeps_of_part {property : SchemaDraft → Prop}
    (hkeeps : ∀ node, Keeps property (buildWithin definitions depth node))
    {earlier later : List Node} {part : Node} {ids : List SchemaId}
    (built : (buildAll definitions depth earlier).run.run draft = (.ok ids, draft'))
    (h : property ((buildWithin definitions depth part).run.run draft').2) :
    property ((buildAll definitions depth (earlier ++ part :: later)).run.run draft).2 := by
  rw [buildAll_append, run_bind, built]
  refine Keeps.after (fun _ _ h => h) ?_
  rw [buildAll]
  refine Keeps.after (fun id => ?_) h
  refine (keeps_buildAll fun other _ => hkeeps other).bind fun others => ?_
  exact fun _ h => h

/-- What a call adds, it adds to what its caller had, and what its caller does after it leaves it
alone. -/
theorem Stays.of_calls {call inner : Call} (h : Calls definitions call inner) :
    Within call.draft inner.draft ∧ Stays definitions inner (call.run definitions).2 := by
  cases h with
  | body opens =>
    refine ⟨?_, opens.stays⟩
    obtain ⟨new, -⟩ := opens
    exact within_enter new
  | @single depth member draft =>
    refine ⟨.refl draft, .of_within ?_⟩
    unfold Call.run
    rw [buildWithin]
    exact .refl _
  | @part depth node part earlier later ids draft draft' href hsingle parts built =>
    have hkept : Within draft draft' :=
      (keeps_buildAll fun other _ => keeps_within draft depth other).of_run (.refl draft) built
    refine ⟨hkept, .of_within ?_⟩
    -- the parts behind it are built, and then the schema over all of them is added
    unfold Call.run
    rw [buildWithin_eq href hsingle, parts]
    refine Keeps.after (fun value => ?_) (keeps_of_part (keeps_within _ depth) built (.refl _))
    exact fun draft hdraft => hdraft.trans (draft.within_add _)

/-- What is left of a call is left of the calls that it makes. -/
theorem Stays.inner {call inner : Call} {final : SchemaDraft} (h : Stays definitions call final)
    (hcalls : Relation.ReflTransGen (Calls definitions) call inner) :
    Stays definitions inner final := by
  -- induction along the calls, from the outermost one inwards
  induction hcalls with
  | refl => exact h
  | tail _ hcalls ih =>
    obtain ⟨hwithin, hstays⟩ := Stays.of_calls hcalls
    refine ⟨hstays.later.trans ih.later, fun slot hlow hhigh => ?_⟩
    -- the lazies of the inner call are among those of its caller
    have hsize := hstays.later.lazies_le
    rw [ih.own slot (Nat.le_trans hwithin.lazies hlow) (Nat.lt_of_lt_of_le hhigh hsize),
      hstays.own slot hlow hhigh]

/-! ## Where lazies come from -/

/-- The definition that the lazy is for is entered in the call. -/
def EnteredIn (definitions : DefinitionMap) (start : Call) (slot : LazyId) : Prop :=
  ∃ call identifier inner, Relation.ReflTransGen (Calls definitions) start call ∧
    Opens definitions call identifier inner ∧ slot = call.draft.graph.lazies.size

theorem EnteredIn.of_calls {start inner : Call} {slot : LazyId}
    (h : EnteredIn definitions inner slot) (hcalls : Calls definitions start inner) :
    EnteredIn definitions start slot := by
  obtain ⟨call, identifier, body, hsteps, hopens⟩ := h
  exact ⟨call, identifier, body, .head hcalls hsteps, hopens⟩

/-- A second step that adds no lazies leaves those of the first. -/
theorem lazies_lt_of_bind {α β : Type} {build : Build α} {f : α → Build β} {slot : LazyId}
    (hf : ∀ value draft, ((f value).run.run draft).2.graph.lazies = draft.graph.lazies)
    (h : slot < ((build >>= f).run.run draft).2.graph.lazies.size) :
    slot < (build.run.run draft).2.graph.lazies.size := by
  rw [run_bind] at h
  rcases hrun : build.run.run draft with ⟨⟨halt⟩ | ⟨value⟩, built⟩
  · rwa [hrun] at h
  · rw [hrun] at h
    exact hf value built ▸ h

/-- A lazy that is added by several builds is added by one of them. -/
theorem exists_part {nodes : List Node} {slot : LazyId} (hlow : draft.graph.lazies.size ≤ slot)
    (hhigh : slot < ((buildAll definitions depth nodes).run.run draft).2.graph.lazies.size) :
    ∃ earlier part later ids draft', nodes = earlier ++ part :: later ∧
      (buildAll definitions depth earlier).run.run draft = (.ok ids, draft') ∧
      draft'.graph.lazies.size ≤ slot ∧
      slot < ((buildWithin definitions depth part).run.run draft').2.graph.lazies.size := by
  induction nodes generalizing draft with
  | nil =>
    rw [buildAll] at hhigh
    exact absurd hhigh (Nat.not_lt_of_le hlow)
  | cons node rest ih =>
    rw [buildAll, run_bind] at hhigh
    rcases hrun : (buildWithin definitions depth node).run.run draft with ⟨result, built⟩
    rw [hrun] at hhigh
    by_cases hslot : slot < built.graph.lazies.size
    · refine ⟨[], node, rest, [], draft, rfl, ?_, hlow, ?_⟩
      · rw [buildAll]
        rfl
      · rwa [hrun]
    · -- the first build has succeeded, as otherwise there are no further lazies
      cases result with
      | error halt => exact absurd hhigh hslot
      | ok id =>
        have hhigh := lazies_lt_of_bind (fun _ _ => rfl) hhigh
        obtain ⟨earlier, part, later, ids, draft', rfl, hearlier, hlow, hhigh⟩ :=
          ih (Nat.le_of_not_lt hslot) hhigh
        refine ⟨node :: earlier, part, later, id :: ids, draft', rfl, ?_, hlow, hhigh⟩
        rw [buildAll, run_bind, hrun]
        dsimp only
        rw [run_bind, hearlier]
        rfl

/-- Where a definition is entered, its own lazy is the first that is added, and then come those of
its body. -/
theorem Opens.enteredIn {call inner : Call} {identifier : String} {slot : LazyId}
    (h : Opens definitions call identifier inner) (hlow : call.draft.graph.lazies.size ≤ slot)
    (hinner : inner.draft.graph.lazies.size ≤ slot → EnteredIn definitions inner slot) :
    EnteredIn definitions call slot := by
  rcases Nat.eq_or_lt_of_le hlow with heq | hlt
  · exact ⟨call, identifier, inner, .refl, h, heq.symm⟩
  · refine (hinner ?_).of_calls (.body h)
    obtain @⟨depth, identifier, displayName, body, draft, new, defined⟩ := h
    exact (draft.lazies_size_enter identifier).trans_le hlt

/-- Each lazy that a build adds is that of a definition that is entered in it. -/
theorem enteredIn_of_run (depth : Nat) (node : Node) {slot : LazyId}
    (hlow : draft.graph.lazies.size ≤ slot)
    (hhigh : slot < ((buildWithin definitions depth node).run.run draft).2.graph.lazies.size) :
    EnteredIn definitions ⟨depth, node, draft⟩ slot := by
  -- induction on what is built; only entering a definition adds a lazy
  induction depth, node using inductionOnBuilds definitions generalizing draft with
  | reference depth identifier displayName ih =>
    rcases hrun :
        (buildWithin definitions depth (.reference identifier displayName)).run.run draft with
      ⟨result, after⟩
    rw [hrun] at hhigh
    cases referenceRun hrun with
    | met | missing | tooDeep => exact absurd hhigh (Nat.not_lt_of_le hlow)
    | built new defined inner =>
      refine (Opens.intro new defined).enteredIn hlow fun hlow => ih _ _ rfl defined hlow ?_
      rw [inner]
      exact hhigh.trans_eq (lazies_size_fill ..)
    | failed new defined inner =>
      refine (Opens.intro new defined).enteredIn hlow fun hlow => ih _ _ rfl defined hlow ?_
      rwa [inner]
  | single depth member ih =>
    rw [buildWithin] at hhigh
    exact (ih hlow hhigh).of_calls .single
  | level depth node href hsingle ih =>
    rw [buildWithin_eq href hsingle] at hhigh
    have hhigh := lazies_lt_of_bind (fun _ _ => rfl) hhigh
    obtain ⟨earlier, part, later, ids, draft', hparts, hbuilt, hlow, hhigh⟩ :=
      exists_part hlow hhigh
    have hp : part ∈ node.schemaParts := hparts ▸ List.mem_append_right _ List.mem_cons_self
    exact (ih part hp hlow hhigh).of_calls (.part href hsingle hparts hbuilt)

/-! ## Sessions -/

theorem buildEach_append (draft : SchemaDraft) (nodes others : List Node) :
    (buildEach definitions draft (nodes ++ others)).2 =
      (buildEach definitions (buildEach definitions draft nodes).2 others).2 := by
  induction nodes generalizing draft with
  | nil => rfl
  | cons node rest ih => exact ih (draft.build definitions node).2

/-- Nothing of a build is changed by the builds after it. -/
theorem TakesPlace.stays {nodes : List Node} {call : Call} (h : TakesPlace definitions nodes call) :
    Stays definitions call (buildEach definitions {} nodes).2 := by
  obtain ⟨earlier, node, later, rfl, hcalls⟩ := h
  rw [buildEach_append]
  refine Stays.inner (.of_within ?_) hcalls
  exact buildEach_keeps (keeps_within _ definitions.size) (.refl _) later

/-- Each lazy that several builds add is that of a definition that is entered in one of them. -/
theorem exists_takesPlace {nodes : List Node} {slot : LazyId}
    (hslot : slot < (buildEach definitions {} nodes).2.graph.lazies.size) :
    ∃ call identifier inner, TakesPlace definitions nodes call ∧
      Opens definitions call identifier inner ∧ slot = call.draft.graph.lazies.size := by
  -- induction from the last node: a lazy was there before it, or is added for it
  induction nodes using List.reverseRecOn with
  | nil => exact absurd hslot (Nat.not_lt_zero slot)
  | append_singleton earlier node ih =>
    by_cases hearlier : slot < (buildEach definitions {} earlier).2.graph.lazies.size
    · obtain ⟨call, identifier, inner, ⟨before, first, between, rfl, hcalls⟩, hinner⟩ := ih hearlier
      refine ⟨call, identifier, inner, ⟨before, first, between ++ [node], ?_, hcalls⟩, hinner⟩
      rw [List.append_assoc, List.cons_append]
    · rw [buildEach_append] at hslot
      obtain ⟨call, identifier, inner, hcalls, hinner⟩ :=
        enteredIn_of_run definitions.size node (Nat.le_of_not_lt hearlier) hslot
      exact ⟨call, identifier, inner, ⟨earlier, node, [], rfl, hcalls⟩, hinner⟩

/-- No build of a session runs out of depth. -/
theorem buildEach_ne_endless (hknown : Known definitions draft) (nodes : List Node) :
    ∀ result ∈ (buildEach definitions draft nodes).1, result ≠ .error .endless := by
  induction nodes generalizing draft with
  | nil => exact fun result hresult => absurd hresult List.not_mem_nil
  | cons node rest ih =>
    refine List.forall_mem_cons.mpr ⟨?_, ih (keeps_known definitions.size node draft hknown)⟩
    exact run_ne_endless definitions.size node ⟨hknown, Nat.le_add_right _ _⟩

/-- The arena of a builder, after any builds, of which any can have failed: it satisfies the
invariant; all builds ended; what was there when a call started and when it ended is there still;
and the lazies are those of the definitions that were entered, each filled exactly if the body was
built. -/
theorem arena_buildEach (definitions : DefinitionMap) (nodes : List Node) :
    Arena definitions (buildEach definitions {} nodes).2 ∧
    (∀ result ∈ (buildEach definitions {} nodes).1, result ≠ .error .endless) ∧
    (∀ call, TakesPlace definitions nodes call →
      Later call.draft (call.run definitions).2 ∧
        Later (call.run definitions).2 (buildEach definitions {} nodes).2) ∧
    (∀ call identifier inner, TakesPlace definitions nodes call →
      Opens definitions call identifier inner →
        (buildEach definitions {} nodes).2.graph.name? call.draft.graph.lazies.size =
          some identifier ∧
        (buildEach definitions {} nodes).2.graph.target? call.draft.graph.lazies.size =
          (inner.run definitions).1.toOption) ∧
    ∀ slot < (buildEach definitions {} nodes).2.graph.lazies.size,
      ∃ call identifier inner, TakesPlace definitions nodes call ∧
        Opens definitions call identifier inner ∧ slot = call.draft.graph.lazies.size := by
  refine ⟨arena_of_buildEach definitions nodes,
    buildEach_ne_endless (List.nil_subset _) nodes, ?_, ?_,
    fun slot => exists_takesPlace⟩
  · exact fun call htakes => ⟨(call.within definitions).later, htakes.stays.later⟩
  · intro call identifier inner htakes hopens
    have hstays := htakes.stays
    have hinner := hopens.stays.later
    refine ⟨(hinner.trans hstays.later).grows.name hopens.name?_run, ?_⟩
    -- the lazy was added in the call, so it stays as the call left it
    have hslot : call.draft.graph.lazies.size < (call.run definitions).2.graph.lazies.size :=
      Nat.lt_of_lt_of_le hopens.lazies_lt
        (Nat.le_trans (inner.within definitions).lazies hinner.lazies_le)
    rw [hstays.own _ (Nat.le_refl _) hslot, hopens.target?_run]

end SchemaDraft

end TypeGraph
