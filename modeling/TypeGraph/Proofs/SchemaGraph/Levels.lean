import TypeGraph.Proofs.Definition.Reach
import TypeGraph.Proofs.SchemaGraph.Wired

/-!
# Builds level by level

Apart from references and unions of one member, every node is built in one way: first the nodes that
its schema is made of, one after the other, and then the schema over theirs.
`SchemaDraft.buildWithin_eq` says so for all kinds of nodes at once, and what a build keeps is
proved along it.

Main results:

* `SchemaDraft.buildWithin_eq`: the build of one level.
* `SchemaDraft.inductionOnBuilds`, `SchemaDraft.referenceRun`: what is built for a node, and what
  can become of a reference.
* `SchemaDraft.keeps_buildWithin`: what adding a schema, entering a definition and filling its lazy
  keep is kept by every build, whether it succeeds or not.
-/

namespace TypeGraph

namespace Node

/-- The nodes whose schemas the schema of a node is made of. -/
def schemaParts (node : Node) : List Node :=
  match node with
  | union first (second :: rest) =>
    match (union first (second :: rest)).presence with
    | .optional content _ => [content]
    | .vacant => []
    | .required => first :: second :: rest
  | node => node.children

/-- A union of one member, which has no schema of its own. -/
def IsSingle (node : Node) : Prop := ∃ member, node = union member []

theorem sizeOf_lt_of_mem_schemaParts {part node : Node} (h : part ∈ node.schemaParts) :
    sizeOf part < sizeOf node := by
  unfold schemaParts at h
  split at h
  · split at h
    · rename_i smaller _
      rw [List.mem_singleton.mp h]
      exact smaller
    · exact absurd h List.not_mem_nil
    · exact sizeOf_lt_of_mem_children h
  · exact sizeOf_lt_of_mem_children h

/-- A level mentions what its parts mention. -/
theorem mentions_eq_schemaParts {node : Node} (h : node.kind ≠ .reference) :
    node.mentions = node.schemaParts.flatMap mentions := by
  unfold schemaParts
  split
  · rename_i first second rest
    rcases (union first (second :: rest)).presence_cases with
      ⟨ho, hp⟩ | ⟨ho, hc, hp⟩ | ⟨content, smaller, ho, hc, hp⟩
    · rw [hp]
      exact mentions_eq h
    · -- nothing is left of the union, and nothing is mentioned in it
      rw [hp, ← mentions_withoutUndefined, hc]
      rfl
    · rw [hp, ← mentions_of_presence hp]
      exact (List.flatMap_singleton ..).symm
  · exact mentions_eq h

end Node

namespace Schema

/-- The schema of a node over the schemas that it is made of. -/
def overParts (node : Node) (ids : List SchemaId) : Schema :=
  match node, ids with
  | .primitive p, _ => .primitive p
  | .literal value, _ => .literal value
  | .array _, [id] => .array id
  | .set _, [id] => .set id
  | .record _ _, [key, value] => .record key value
  | .map _ _, [key, value] => .map key value
  | .object shape, ids => .object (.ofList ((shape.map Prod.fst).zip ids))
  | .union first rest, ids =>
    match (Node.union first rest).presence, ids with
    | .optional _ _, [id] => .optional id
    | .required, ids => .union ids
    | _, _ => .primitive .undefined
  | .tuple _ _, ids => .tuple ids
  | .intersection _ _, ids => .intersection ids
  | .function _ none, ids => .function ids none
  | .function _ (some _), ids => .function ids.dropLast ids.getLast?
  | _, _ => .primitive .never

theorem overParts_ne_lazy (node : Node) (ids : List SchemaId) (slot : LazyId) :
    overParts node ids ≠ .lazy slot := by
  unfold overParts
  split <;> first | exact Schema.noConfusion | (split <;> exact Schema.noConfusion)

end Schema

namespace SchemaDraft

open SchemaGraph

variable {definitions : DefinitionMap} {depth : Nat}

/-! ## Levels -/

theorem buildAll_append (nodes others : List Node) :
    buildAll definitions depth (nodes ++ others) = do
      let ids ← buildAll definitions depth nodes
      return ids ++ (← buildAll definitions depth others) := by
  induction nodes with
  | nil =>
    rw [buildAll]
    simp only [List.nil_append, pure_bind, bind_pure]
  | cons node rest ih =>
    rw [List.cons_append, buildAll, buildAll, ih]
    simp only [bind_assoc, pure_bind, List.cons_append]

theorem buildAll_singleton (node : Node) :
    buildAll definitions depth [node] = do return [← buildWithin definitions depth node] := by
  rw [buildAll, buildAll]
  simp only [pure_bind]

theorem buildShape_eq (shape : List (String × Node)) :
    buildShape definitions depth shape = do
      return (shape.map Prod.fst).zip (← buildAll definitions depth (shape.map Prod.snd)) := by
  induction shape with
  | nil =>
    rw [buildShape, List.map_nil, List.map_nil, buildAll]
    rfl
  | cons property rest ih =>
    rw [buildShape, List.map_cons, List.map_cons, buildAll, ih]
    simp only [bind_assoc, pure_bind, List.zip_cons_cons]

/-- Apart from references and unions of one member, a node is built after its parts. -/
theorem buildWithin_eq {node : Node} (href : node.kind ≠ .reference) (hsingle : ¬ node.IsSingle) :
    buildWithin definitions depth node =
      (do add (.overParts node (← buildAll definitions depth node.schemaParts))) := by
  cases node with
  | primitive | literal =>
    rw [buildWithin, Node.schemaParts, Node.children, buildAll]
    · rfl
    · exact fun _ _ _ => Node.noConfusion
  | array | set =>
    rw [buildWithin, Node.schemaParts, Node.children, buildAll_singleton]
    · simp only [bind_assoc, pure_bind, Schema.overParts]
    · exact fun _ _ _ => Node.noConfusion
  | record | map =>
    rw [buildWithin, Node.schemaParts, Node.children, buildAll, buildAll_singleton]
    · simp only [bind_assoc, pure_bind, Schema.overParts]
    · exact fun _ _ _ => Node.noConfusion
  | object shape =>
    rw [buildWithin, Node.schemaParts, Node.children, buildShape_eq]
    · simp only [bind_assoc, pure_bind, Schema.overParts]
    · exact fun _ _ _ => Node.noConfusion
  | union first rest =>
    cases rest with
    | nil => exact absurd ⟨first, rfl⟩ hsingle
    | cons second rest =>
      rw [buildWithin]
      · unfold Node.schemaParts Schema.overParts
        rcases (Node.union first (second :: rest)).presence_cases with
          ⟨ho, hp⟩ | ⟨ho, hc, hp⟩ | ⟨content, smaller, ho, hc, hp⟩
        · simp only [hp, bind_assoc, pure_bind, buildAll]
        · simp only [hp, pure_bind, buildAll]
        · simp only [hp, bind_assoc, pure_bind, buildAll_singleton]
      · exact List.cons_ne_nil _ _
  | tuple | intersection =>
    rw [buildWithin, Node.schemaParts, Node.children, buildAll]
    · simp only [bind_assoc, pure_bind, Schema.overParts]
    · exact fun _ _ _ => Node.noConfusion
  | function parameters returns =>
    rw [buildWithin, Node.schemaParts, Node.children, buildAll_append]
    · cases returns with
      | none =>
        -- the result, where there is one, is the last of the parts
        simp only [bind_assoc, pure_bind, Schema.overParts, buildOption, Option.toList_none,
          buildAll, List.append_nil]
      | some result =>
        simp only [bind_assoc, pure_bind, Schema.overParts, buildOption, Option.toList_some,
          buildAll_singleton, List.dropLast_concat, List.getLast?_concat]
    · exact fun _ _ _ => Node.noConfusion
  | reference => exact absurd rfl href

/-- Induction on what is built for a node: its parts, or the body of the definition that it refers
to, one level deeper. -/
theorem inductionOnBuilds (definitions : DefinitionMap) {motive : Nat → Node → Prop}
    (reference : ∀ depth identifier displayName, (∀ fewer body, depth = fewer + 1 →
      definitions.node? identifier = some body → motive fewer body) →
      motive depth (.reference identifier displayName))
    (single : ∀ depth member, motive depth member → motive depth (.union member []))
    (level : ∀ depth (node : Node), node.kind ≠ .reference → ¬ node.IsSingle →
      (∀ part ∈ node.schemaParts, motive depth part) → motive depth node)
    (depth : Nat) (node : Node) : motive depth node := by
  -- a body is built with less depth, and a part is smaller at the same depth
  by_cases href : node.kind = .reference
  · cases node with
    | reference identifier displayName =>
      refine reference depth identifier displayName fun fewer body hdepth _ => ?_
      have : fewer < depth := by omega
      exact inductionOnBuilds definitions reference single level fewer body
    | _ => cases href
  · by_cases hsingle : node.IsSingle
    · obtain ⟨member, hmember⟩ := hsingle
      have : sizeOf member < sizeOf node := by
        rw [hmember]
        exact Node.sizeOf_lt_of_mem_children List.mem_cons_self
      exact hmember ▸ single depth member
        (inductionOnBuilds definitions reference single level depth member)
    · refine level depth node href hsingle fun part hp => ?_
      have := Node.sizeOf_lt_of_mem_schemaParts hp
      exact inductionOnBuilds definitions reference single level depth part
  termination_by (depth, sizeOf node)
  decreasing_by
    all_goals simp_wf
    all_goals omega

/-! ## References -/

/-- The result of a reference, and the draft after it. A reference is its handle. Without one,
the definition is entered, its body is built with one level less, and the schema of that fills
the lazy. -/
def afterReference (definitions : DefinitionMap) (depth : Nat) (identifier : String)
    (draft : SchemaDraft) : Except Halt SchemaId × SchemaDraft :=
  match draft.handles.get? identifier, definitions.node? identifier, depth with
  | some handle, _, _ => (.ok handle, draft)
  | none, none, _ => (.error (.failed (.unresolvedReference identifier)), draft)
  | none, some _, 0 => (.error .endless, draft)
  | none, some body, depth + 1 =>
    match (buildWithin definitions depth body).run.run (draft.enter identifier) with
    | (.ok target, built) => (.ok draft.graph.size,
        { built with graph := built.graph.fill draft.graph.lazies.size target })
    | (.error halt, built) => (.error halt, built)

theorem run_reference (identifier : String) (displayName : Option String) (draft : SchemaDraft) :
    (buildWithin definitions depth (.reference identifier displayName)).run.run draft =
      afterReference definitions depth identifier draft := by
  rw [buildWithin, run_get_bind]
  unfold afterReference
  cases draft.handles.get? identifier with
  | some handle => rfl
  | none =>
    cases definitions.node? identifier with
    | none => rfl
    | some body =>
      cases depth with
      | zero => rfl
      | succ depth =>
        -- entering the definition does not fail, so its body is built in the draft with the handle
        change (do
          fill draft.graph.lazies.size (← buildWithin definitions depth body)
          return draft.graph.size : Build SchemaId).run.run (draft.enter identifier) = _
        rw [ExceptT.run_bind, StateT.run_bind]
        dsimp only
        rcases (buildWithin definitions depth body).run.run (draft.enter identifier) with
          ⟨⟨halt⟩ | ⟨target⟩, built⟩
        · rfl
        · rfl

/-- What can become of a reference, with the result and the draft that is left. -/
inductive ReferenceRun (definitions : DefinitionMap) (identifier : String) (draft : SchemaDraft) :
    Nat → Except Halt SchemaId → SchemaDraft → Prop
  /-- There is a handle. -/
  | met {depth : Nat} {handle : SchemaId} (found : draft.handles.get? identifier = some handle) :
      ReferenceRun definitions identifier draft depth (.ok handle) draft
  | missing {depth : Nat} (new : draft.handles.get? identifier = none)
      (undefined : definitions.node? identifier = none) :
      ReferenceRun definitions identifier draft depth
        (.error (.failed (.unresolvedReference identifier))) draft
  | tooDeep {body : Node} (new : draft.handles.get? identifier = none)
      (defined : definitions.node? identifier = some body) :
      ReferenceRun definitions identifier draft 0 (.error .endless) draft
  /-- The definition is entered and its body is built. -/
  | built {depth : Nat} {body : Node} {target : SchemaId} {built : SchemaDraft}
      (new : draft.handles.get? identifier = none)
      (defined : definitions.node? identifier = some body)
      (inner : (buildWithin definitions depth body).run.run (draft.enter identifier) =
        (.ok target, built)) :
      ReferenceRun definitions identifier draft (depth + 1) (.ok draft.graph.size)
        { built with graph := built.graph.fill draft.graph.lazies.size target }
  /-- The definition is entered and its body fails: the handle stays, and the lazy stays
  unfilled. -/
  | failed {depth : Nat} {body : Node} {halt : Halt} {built : SchemaDraft}
      (new : draft.handles.get? identifier = none)
      (defined : definitions.node? identifier = some body)
      (inner : (buildWithin definitions depth body).run.run (draft.enter identifier) =
        (.error halt, built)) :
      ReferenceRun definitions identifier draft (depth + 1) (.error halt) built

theorem referenceRun {identifier : String} {displayName : Option String} {draft after : SchemaDraft}
    {result : Except Halt SchemaId}
    (h : (buildWithin definitions depth (.reference identifier displayName)).run.run draft =
      (result, after)) : ReferenceRun definitions identifier draft depth result after := by
  rw [run_reference] at h
  unfold afterReference at h
  -- the four tests that a reference makes, in their order
  cases hhandle : draft.handles.get? identifier with
  | some handle =>
    rw [hhandle] at h
    cases h
    exact .met hhandle
  | none =>
    cases hbody : definitions.node? identifier with
    | none =>
      rw [hhandle, hbody] at h
      cases h
      exact .missing hhandle hbody
    | some body =>
      rw [hhandle, hbody] at h
      cases depth with
      | zero =>
        cases h
        exact .tooDeep hhandle hbody
      | succ depth =>
        rcases hrun : (buildWithin definitions depth body).run.run (draft.enter identifier) with
          ⟨⟨halt⟩ | ⟨target⟩, built⟩
        · simp only [hrun] at h
          cases h
          exact .failed hhandle hbody hrun
        · simp only [hrun] at h
          cases h
          exact .built hhandle hbody hrun

theorem mem_keys_of_node? {identifier : String} {body : Node}
    (h : definitions.node? identifier = some body) : identifier ∈ definitions.keys :=
  DefinitionMap.node?_isSome_iff.mp (by rw [h]; rfl)

/-! ## What builds keep -/

theorem run_bind {α β : Type} (build : Build α) (f : α → Build β) (draft : SchemaDraft) :
    (build >>= f).run.run draft =
      match build.run.run draft with
      | (.ok value, built) => (f value).run.run built
      | (.error halt, built) => (.error halt, built) := by
  rw [ExceptT.run_bind, StateT.run_bind]
  rcases build.run.run draft with ⟨⟨halt⟩ | ⟨value⟩, built⟩
  · rfl
  · rfl

/-- The build keeps the property of drafts, whether it succeeds or not. -/
def Keeps {α : Type} (property : SchemaDraft → Prop) (build : Build α) : Prop :=
  ∀ draft, property draft → property (build.run.run draft).2

section

variable {α β : Type} {property : SchemaDraft → Prop}

theorem Keeps.of_run {build : Build α} (h : Keeps property build) {draft built : SchemaDraft}
    {result : Except Halt α} (hdraft : property draft)
    (hrun : build.run.run draft = (result, built)) : property built := by
  have hbuilt := h draft hdraft
  rwa [hrun] at hbuilt

/-- What holds after a build holds after what is built next, if that keeps it. -/
theorem Keeps.after {build : Build α} {f : α → Build β} (hf : ∀ value, Keeps property (f value))
    {draft : SchemaDraft} (h : property (build.run.run draft).2) :
    property ((build >>= f).run.run draft).2 := by
  rw [run_bind]
  rcases hrun : build.run.run draft with ⟨⟨halt⟩ | ⟨value⟩, built⟩
  · -- nothing is built after a failure
    rwa [hrun] at h
  · rw [hrun] at h
    exact hf value built h

theorem Keeps.bind {build : Build α} {f : α → Build β} (h : Keeps property build)
    (hf : ∀ value, Keeps property (f value)) : Keeps property (build >>= f) :=
  fun draft hdraft => Keeps.after hf (h draft hdraft)

theorem keeps_buildAll {nodes : List Node}
    (h : ∀ node ∈ nodes, Keeps property (buildWithin definitions depth node)) :
    Keeps property (buildAll definitions depth nodes) := by
  induction nodes with
  | nil =>
    rw [buildAll]
    exact fun _ hdraft => hdraft
  | cons node rest ih =>
    rw [buildAll]
    refine (h node List.mem_cons_self).bind fun id => ?_
    refine (ih fun other ho => h other (List.mem_cons_of_mem _ ho)).bind fun ids => ?_
    exact fun _ hdraft => hdraft

section

variable (hadd : ∀ draft schema, (∀ slot, schema ≠ .lazy slot) → property draft →
  property { draft with graph := (draft.graph.add schema).2 })

include hadd

theorem keeps_level {node : Node} (href : node.kind ≠ .reference) (hsingle : ¬ node.IsSingle)
    (hparts : ∀ part ∈ node.schemaParts, Keeps property (buildWithin definitions depth part)) :
    Keeps property (buildWithin definitions depth node) := by
  rw [buildWithin_eq href hsingle]
  refine (keeps_buildAll hparts).bind fun ids => ?_
  exact fun draft hdraft => hadd draft _ (Schema.overParts_ne_lazy node ids) hdraft

/-- What references keep, all nodes keep. -/
theorem keeps_of_references
    (hreference : ∀ identifier displayName,
      Keeps property (buildWithin definitions depth (.reference identifier displayName)))
    (node : Node) : Keeps property (buildWithin definitions depth node) := by
  induction depth, node using inductionOnBuilds definitions with
  | reference depth identifier displayName _ => exact hreference identifier displayName
  | single depth member ih =>
    rw [buildWithin]
    exact ih hreference
  | level depth node href hsingle ih =>
    exact keeps_level hadd href hsingle fun part hp => ih part hp hreference

/-- Adding a schema, entering a definition and filling a lazy that came later are all that a build
does. -/
theorem keeps_buildWithin
    (henter : ∀ draft identifier, identifier ∈ definitions.keys →
      draft.handles.get? identifier = none → property draft → property (draft.enter identifier))
    (hfill : ∀ (before draft : SchemaDraft) target, property before → property draft →
      property { draft with graph := draft.graph.fill before.graph.lazies.size target })
    (depth : Nat) (node : Node) : Keeps property (buildWithin definitions depth node) := by
  -- a reference enters and fills, and whatever is built in between keeps the property by induction
  induction depth, node using inductionOnBuilds definitions with
  | reference depth identifier displayName ih =>
    intro draft hdraft
    rcases hrun :
        (buildWithin definitions depth (.reference identifier displayName)).run.run draft with
      ⟨result, after⟩
    cases referenceRun hrun with
    | met | missing | tooDeep => exact hdraft
    | built new defined inner =>
      have hentered := henter draft identifier (mem_keys_of_node? defined) new hdraft
      exact hfill draft _ _ hdraft ((ih _ _ rfl defined).of_run hentered inner)
    | failed new defined inner =>
      have hentered := henter draft identifier (mem_keys_of_node? defined) new hdraft
      exact (ih _ _ rfl defined).of_run hentered inner
  | single depth member ih =>
    rw [buildWithin]
    exact ih
  | level depth node href hsingle ih => exact keeps_level hadd href hsingle ih

end

end

end SchemaDraft

end TypeGraph
