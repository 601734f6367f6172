import TypeGraph.Proofs.Definition.Meaning
import TypeGraph.Proofs.SchemaGraph.Collects

/-!
# What is read is what is there

Whatever the graph, reading it ends. It fails exactly if it leads to a lazy without a target or to a
union, tuple or intersection without members. Otherwise every lazy that is met has become a
definition of its own, and the node means what the graph means: `Shows` says what stands at the end
of a path in a graph, as `Node.Shows` does for nodes, and both know the same paths and what stands
there.

Main result: `SchemaGraph.toExtraction_exact`.
-/

namespace TypeGraph.SchemaGraph

open Relation

variable {graph : SchemaGraph} {id root : SchemaId} {path : List Node.Selector} {node shown : Node}
  {registry : Registry LazyId}

/-! ## Meaning -/

/-- What stands at the end of a path from a schema. Unions show what their members show, an optional
schema shows `undefined` besides what is inside, and lazies are followed without notice. -/
inductive Shows (graph : SchemaGraph) : SchemaId → List Node.Selector → Node → Prop where
  | head {id : SchemaId} {head : Node} (head? : (graph.get id).head? = some head) :
      Shows graph id [] head
  | part {id child : SchemaId} {head shown : Node} {selector : Node.Selector}
      {path : List Node.Selector}
      (head? : (graph.get id).head? = some head)
      (mem : (selector, child) ∈ head.selectors.zip (graph.get id).children)
      (shows : Shows graph child path shown) : Shows graph id (selector :: path) shown
  | member {id member : SchemaId} {members : List SchemaId} {path : List Node.Selector}
      {shown : Node}
      (union : graph.get id = .union members) (mem : member ∈ members)
      (shows : Shows graph member path shown) : Shows graph id path shown
  | content {id inner : SchemaId} {path : List Node.Selector} {shown : Node}
      (optional : graph.get id = .optional inner) (shows : Shows graph inner path shown) :
      Shows graph id path shown
  | absent {id inner : SchemaId} (optional : graph.get id = .optional inner) :
      Shows graph id [] .undefined
  | follow {id target : SchemaId} {slot : LazyId} {path : List Node.Selector} {shown : Node}
      (deferred : graph.get id = .lazy slot) (filled : graph.target? slot = some target)
      (shows : Shows graph target path shown) : Shows graph id path shown

section

variable (h : Collected graph registry) (hpending : registry.pending = [])

include h hpending

/-- What is read shows nothing new. -/
theorem Collected.shows_of_node {steps : Nat} (hread : graph.ReadAs registry.identifier? id node)
    (hshows : Node.Shows registry.definitions steps node path shown) :
    graph.Shows id path shown := by
  -- outer induction on the references to follow, inner one on what the schema is made of
  induction steps using Nat.strong_induction_on generalizing id node path shown with
  | _ steps ihsteps =>
    induction hread generalizing path shown with
    | @level id parts node length _ assembled ih =>
      have hparts : List.Forall₂ (fun part child => ∀ path shown,
          Node.Shows registry.definitions steps part path shown → graph.Shows child path shown)
          parts (graph.get id).children :=
        (List.forall₂_iff_zip.mpr ⟨length.symm, fun hm _ _ => ih _ _ hm⟩).flip
      rcases Schema.cases_of_assemble assembled length with
        ⟨members, hunion⟩ | ⟨inner, hoptional⟩ | ⟨head, hhead⟩
      · -- a union shows nothing but what its members show
        rw [hunion] at assembled hparts
        obtain ⟨first, rest, rfl, rfl⟩ := Schema.union_of_assemble assembled
        cases hshows with
        | head union => exact absurd rfl union
        | part mem => exact absurd mem List.not_mem_nil
        | member mem shows =>
          obtain ⟨member, hm, hmember⟩ := exists_of_mem_forall₂ hparts mem
          exact .member hunion hm (hmember _ _ shows)
      · rw [hoptional] at assembled length hparts
        obtain ⟨part, rfl, rfl⟩ := Schema.optional_of_assemble assembled length
        -- either what the content shows, or that it may be absent
        rcases Node.shows_optional_iff.mp hshows with hshows | ⟨rfl, rfl⟩
        · obtain ⟨child, hc, hchild⟩ := exists_of_mem_forall₂ hparts List.mem_cons_self
          obtain rfl := List.mem_singleton.mp hc
          exact .content hoptional (hchild _ _ hshows)
        · exact .absent hoptional
      · obtain ⟨rfl, hchildren, hunion, hreference⟩ :=
          Schema.head_of_assemble assembled length hhead
        cases hshows with
        | head => exact .head hhead
        | part mem shows =>
          -- the child with the same selector shows the rest of the path
          rw [Node.parts, hchildren, ← Node.selectors_head] at mem
          obtain ⟨child, hc, hchild⟩ := exists_of_mem_zip hparts mem
          exact .part hhead hc (hchild _ _ shows)
        | member => exact absurd rfl hunion
        | follow => exact absurd rfl hreference
    | @deferred id slot identifier schema named =>
      obtain ⟨target, body, htarget, hd, hbody⟩ := h.exists_body hpending named
      cases hshows with
      | head _ reference => exact absurd rfl reference
      | part mem => exact absurd mem List.not_mem_nil
      | follow body? shows =>
        rw [DefinitionMap.node?, hd] at body?
        cases body?
        exact .follow schema htarget (ihsteps _ (Nat.lt_succ_self _) hbody shows)

/-- What the graph shows is shown by what is read. -/
theorem Collected.exists_shows (hshows : graph.Shows id path shown)
    (hread : graph.ReadAs registry.identifier? id node) :
    ∃ steps, Node.Shows registry.definitions steps node path shown := by
  -- along the path in the graph; a schema is read as a level, or as a reference if it is a lazy
  induction hshows generalizing node with
  | head hhead =>
    cases hread with
    | level length _ assembled =>
      obtain ⟨rfl, -, hunion, hreference⟩ := Schema.head_of_assemble assembled length hhead
      exact ⟨0, .head hunion hreference⟩
    | deferred schema =>
      rw [schema] at hhead
      cases hhead
  | part hhead mem _ ih =>
    cases hread with
    | level length inner assembled =>
      obtain ⟨rfl, hchildren, -, -⟩ := Schema.head_of_assemble assembled length hhead
      obtain ⟨part, hp, hpart⟩ :=
        exists_of_mem_zip (List.forall₂_iff_zip.mpr ⟨length.symm, inner _ _⟩) mem
      obtain ⟨steps, hshows⟩ := ih hpart
      rw [Node.selectors_head, ← hchildren] at hp
      exact ⟨steps, .part hp hshows⟩
    | deferred schema =>
      rw [schema] at hhead
      cases hhead
  | member hunion mem _ ih =>
    cases hread with
    | level length inner assembled =>
      rw [hunion] at assembled length inner
      obtain ⟨part, hp⟩ := exists_mem_zip (Nat.le_of_eq length.symm) mem
      obtain ⟨steps, hshows⟩ := ih (inner _ _ hp)
      obtain ⟨first, rest, rfl, rfl⟩ := Schema.union_of_assemble assembled
      exact ⟨steps, .member (List.of_mem_zip hp).2 hshows⟩
    | deferred schema => cases schema.symm.trans hunion
  | content hoptional _ ih =>
    cases hread with
    | level length inner assembled =>
      rw [hoptional] at assembled length inner
      obtain ⟨part, rfl, rfl⟩ := Schema.optional_of_assemble assembled length
      obtain ⟨steps, hshows⟩ := ih (inner _ _ List.mem_cons_self)
      exact ⟨steps, Node.shows_optional_iff.mpr (.inl hshows)⟩
    | deferred schema => cases schema.symm.trans hoptional
  | absent hoptional =>
    cases hread with
    | level length _ assembled =>
      rw [hoptional] at assembled length
      obtain ⟨part, rfl, rfl⟩ := Schema.optional_of_assemble assembled length
      exact ⟨0, Node.shows_optional_iff.mpr (.inr ⟨rfl, rfl⟩)⟩
    | deferred schema => cases schema.symm.trans hoptional
  | follow hdeferred hfilled _ ih =>
    cases hread with
    | level _ _ assembled =>
      rw [hdeferred] at assembled
      cases assembled
    | deferred schema named =>
      -- the lazy is filled, and its target was read as the definition
      cases schema.symm.trans hdeferred
      obtain ⟨target, body, htarget, hd, hbody⟩ := h.exists_body hpending named
      cases htarget.symm.trans hfilled
      obtain ⟨steps, hshows⟩ := ih hbody
      refine ⟨steps + 1, .follow ?_ hshows⟩
      rw [DefinitionMap.node?, hd]
      rfl

/-- What is read means what is there. -/
theorem Collected.shows_iff (hread : graph.ReadAs registry.identifier? id node)
    (path : List Node.Selector) (shown : Node) :
    Extraction.Shows ⟨node, registry.definitions⟩ path shown ↔ graph.Shows id path shown :=
  ⟨fun ⟨_, hshows⟩ => h.shows_of_node hpending hread hshows,
    fun hshows => h.exists_shows hpending hshows hread⟩

/-- The references of what is read are to definitions of lazies, by their names. -/
theorem Collected.closes (hread : graph.ReadAs registry.identifier? id node) :
    registry.definitions.Closes node := by
  intro identifier displayName hoccurs
  -- a reference comes from a lazy, which is registered, and stands in a level by way of a part
  induction hread with
  | level length _ assembled ih =>
    have hparts : List.Forall₂ (fun part _ => Node.Occurs (.reference identifier displayName) part →
        ∃ definition, registry.definitions.get? identifier = some definition ∧
          definition.label = displayName) _ _ :=
      (List.forall₂_iff_zip.mpr ⟨length.symm, fun hm => ih _ _ hm⟩).flip
    obtain ⟨part, hp, hoccurs⟩ := Schema.occurs_of_assemble assembled length hoccurs
    obtain ⟨_, -, hpart⟩ := exists_of_mem_forall₂ hparts hp
    exact hpart hoccurs
  | deferred schema named =>
    cases Node.occurs_reference_iff.mp hoccurs
    obtain ⟨target, body, -, hd, -⟩ := h.exists_body hpending named
    exact ⟨_, hd, rfl⟩

end

/-! ## The whole import -/

/-- The extraction is what the graph means from the root on: it has one definition for each lazy
that is met, under an identifier of its own and with the name of the lazy for a label. -/
structure Extracts (graph : SchemaGraph) (root : SchemaId) (identifier : LazyId → String)
    (extraction : Extraction) : Prop where
  closed : extraction.Closed
  keys : ∀ name, name ∈ extraction.definitions.keys ↔ ∃ slot, graph.Meets root slot ∧
      identifier slot = name
  injective : ∀ slot other, graph.Meets root slot → graph.Meets root other →
    identifier slot = identifier other → slot = other
  bodies : ∀ slot, graph.Meets root slot → ∃ target body, graph.target? slot = some target ∧
    extraction.definitions.get? (identifier slot) = some ⟨body, some (graph.lazyName slot)⟩ ∧
      ∀ path shown, Extraction.Shows ⟨body, extraction.definitions⟩ path shown ↔
        graph.Shows target path shown
  shows : ∀ path shown, extraction.Shows path shown ↔ graph.Shows root path shown

/-- What is left behind when a root has been read, as an extraction. -/
theorem Collects.extracts (h : Collects graph .empty registry [root])
    (hread : graph.ReadAs registry.identifier? root node) :
    Extracts graph root (fun slot => (registry.identifier? slot).getD "")
      ⟨node, registry.definitions⟩ := by
  have hcollected := h.collected
  have hpending : registry.pending = [] := List.subset_nil.mp h.pending
  have hmeets {slot : LazyId} {identifier : String}
      (hi : registry.identifier? slot = some identifier) :
      graph.Meets root slot := by
    rcases h.reached slot identifier hi with hi | ⟨start, hs, hmeets⟩
    · cases hi
    · exact List.mem_singleton.mp hs ▸ hmeets
  -- a lazy that is met is read, so it has an identifier
  have hidentifier {slot : LazyId} (hslot : graph.Meets root slot) :
      ∃ identifier, registry.identifier? slot = some identifier := by
    obtain ⟨place, hleads, hplace⟩ := hslot
    obtain ⟨node, hread⟩ := hcollected.readAs_of_leads hpending hread hleads
    cases hread with
    | level _ _ assembled =>
      rw [hplace] at assembled
      cases assembled
    | deferred schema named =>
      cases schema.symm.trans hplace
      exact ⟨_, named⟩
  have hvalid := hcollected.sound.valid
  refine ⟨⟨hcollected.closes hpending hread, ?_⟩, ?_, ?_, ?_, hcollected.shows_iff hpending hread⟩
  · intro identifier definition hd
    obtain ⟨slot, hi⟩ := hvalid.exists_key (OrderedMap.mem_keys_iff.mpr ⟨definition, hd⟩)
    obtain ⟨target, body, -, hd', hbody⟩ := hcollected.exists_body hpending hi
    cases hd.symm.trans hd'
    exact hcollected.closes hpending hbody
  · intro name
    constructor
    · intro hname
      obtain ⟨slot, hi⟩ := hvalid.exists_key hname
      exact ⟨slot, hmeets hi, by rw [hi]; rfl⟩
    · rintro ⟨slot, hslot, rfl⟩
      obtain ⟨identifier, hi⟩ := hidentifier hslot
      rw [hi]
      exact hvalid.mem_keys hi
  · intro slot other hslot hother heq
    obtain ⟨identifier, hi⟩ := hidentifier hslot
    obtain ⟨identifier', hi'⟩ := hidentifier hother
    rw [hi, hi', Option.getD_some, Option.getD_some] at heq
    exact hvalid.key_unique hi (heq ▸ hi')
  · intro slot hslot
    obtain ⟨identifier, hi⟩ := hidentifier hslot
    obtain ⟨target, body, htarget, hd, hbody⟩ := hcollected.exists_body hpending hi
    refine ⟨target, body, htarget, ?_, hcollected.shows_iff hpending hbody⟩
    rw [hi]
    exact hd

/-- Reading a graph that was built ends. It succeeds exactly if everything that the root leads to is
complete, and then the extraction is what the graph means. -/
theorem toExtraction_exact (hbuilt : graph.Built) (hroot : root < graph.size) :
    graph.toExtraction root ≠ .error .endless ∧
      ((∃ extraction, graph.toExtraction root = .ok extraction) ↔
        ∀ id, ReflTransGen graph.Leads root id → graph.Complete id) ∧
      ∀ extraction, graph.toExtraction root = .ok extraction →
        ∃ identifier, Extracts graph root identifier extraction := by
  -- between two lazies there are fewer steps than schemas, and each lazy is entered once
  have hdepth : graph.Within .empty ((graph.lazies.size + 1) * (graph.size + 1)) root := by
    unfold Within
    rw [Nat.succ_mul]
    exact Nat.add_lt_add_of_le_of_lt (Nat.mul_le_mul_right _ (Nat.sub_le ..))
      (Nat.lt_succ_of_lt hroot)
  have hends := ends_importWithin hbuilt hroot .empty hdepth
  generalize hrun : (graph.importWithin _ root).run.run .empty = out at hends
  cases hends with
  | @failed start place error registry mem leads incomplete =>
    -- an incomplete place was met on the way from the root
    obtain rfl := List.mem_singleton.mp mem
    have hfailed : graph.toExtraction start = .error (.failed error) := by
      rw [toExtraction, hrun]
      rfl
    rw [hfailed]
    refine ⟨by simp, ⟨?_, fun hcomplete => absurd (hcomplete place leads) incomplete⟩, ?_⟩
    · rintro ⟨_, h⟩
      cases h
    · intro _ h
      cases h
  | @read node registry collects reads =>
    -- nothing is pending, so that all places the root leads to have been read
    have hok : graph.toExtraction root = .ok ⟨node, registry.definitions⟩ := by
      rw [toExtraction, hrun]
      rfl
    rw [hok]
    refine ⟨by simp, ⟨fun _ id hleads => ?_, fun _ => ⟨_, rfl⟩⟩, ?_⟩
    · have hpending : registry.pending = [] := List.subset_nil.mp collects.pending
      obtain ⟨_, hread⟩ := collects.collected.readAs_of_leads hpending reads hleads
      exact collects.collected.complete_of_readAs hpending hread
    · intro _ h
      cases h
      exact ⟨_, collects.extracts reads⟩

/-- Two lazies of one name that lead to each other, one of them through an optional property. -/
def namesakes : SchemaGraph where
  schemas := #[.lazy 0, .lazy 1, .optional 1, .object (.ofList [("next", 2)]), .array 0]
  lazies := #[⟨"node", some 3⟩, ⟨"node", some 4⟩]

def namesakesExtraction : Extraction where
  root := .reference "Node" (some "node")
  definitions := .ofList [
    ("Node",
      ⟨.object [("next", .union (.reference "Node2" (some "node")) [.undefined])], some "node"⟩),
    ("Node2", ⟨.array (.reference "Node" (some "node")), some "node"⟩)]

theorem namesakes_extracts :
    namesakes.Built ∧ 0 < namesakes.size ∧ namesakes.toExtraction 0 = .ok namesakesExtraction ∧
      ∃ identifier, Extracts namesakes 0 identifier namesakesExtraction := by
  -- first the lazies, then the schemas, then what the lazies stand for
  have hlazies := (Built.empty.addLazy "node").addLazy "node"
  have hdeferred :=
    (hlazies.add (.lazy 0) (by decide) (by rintro slot ⟨⟩; decide)).add (.lazy 1) (by decide)
    (by rintro slot ⟨⟩; decide)
  have hschemas := ((hdeferred.add (.optional 1) (by decide) (by rintro slot ⟨⟩)).add
    (.object (.ofList [("next", 2)])) (by decide) (by rintro slot ⟨⟩)).add (.array 0) (by decide)
      (by rintro slot ⟨⟩)
  have hbuilt : namesakes.Built :=
    (hschemas.fill 0 (show 3 < 5 by decide)).fill 1 (show 4 < 5 by decide)
  have hread : namesakes.toExtraction 0 = .ok namesakesExtraction := by rfl
  obtain ⟨-, -, hextracts⟩ := toExtraction_exact hbuilt (show 0 < namesakes.size by decide)
  exact ⟨hbuilt, by decide, hread, hextracts _ hread⟩

end TypeGraph.SchemaGraph
