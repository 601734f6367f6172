import TypeGraph.Proofs.Emission.Modules
import TypeGraph.Proofs.Extraction.Closed
import TypeGraph.Proofs.JsonSchema.Faults
import TypeGraph.Proofs.SchemaGraph.Ends
import TypeGraph.TypeStore.Text

/-!
# Emitting what was extracted

Every extraction that ends well is closed and finished, under every policy: what it refers to is
there, no body is a placeholder, and nothing is there without being referred to. So it can be
emitted.

Main results:

* `TypeStore.extract_closed`: all of this about the types of a store.
-/

namespace TypeGraph

open Validator

/-- Zod and schema graphs take the extraction, and no target finds a reference in it that it cannot
resolve. -/
structure Extraction.Emittable (extraction : Extraction) : Prop where
  zod : ∃ text, emit .zod extraction.definitions extraction.root = .ok text
  zodModule : ∀ exported rootName, ∃ text,
    emitModule .zod exported extraction.definitions extraction.root rootName = .ok text
  graph : ∃ graph root,
    SchemaGraph.ofNode extraction.definitions extraction.root = .ok (graph, root)
  emit : ∀ dialect identifier, emit dialect extraction.definitions extraction.root ≠
    .error (.unresolvedReference identifier)
  definitions : ∀ dialect exported identifier,
    emitDefinitions dialect exported extraction.definitions ≠
      .error (.unresolvedReference identifier)
  modules : ∀ dialect exported rootName identifier,
    emitModule dialect exported extraction.definitions extraction.root rootName ≠
      .error (.unresolvedReference identifier)
  typeExpr : ∀ identifier, TypeExpr.ofNode extraction.definitions extraction.root ≠
    .error (.unresolvedReference identifier)
  aliases : ∀ identifier, TypeAlias.ofDefinitions extraction.definitions ≠
    .error (.unresolvedReference identifier)
  declarations : ∀ style rootName identifier,
    TypeAlias.printModule style extraction.definitions extraction.root rootName ≠
      .error (.unresolvedReference identifier)
  document : ∀ graph root identifier,
    SchemaGraph.ofNode extraction.definitions extraction.root = .ok (graph, root) →
      graph.document root ≠ .error (.failed (.unresolvedReference identifier))

theorem Extraction.Closed.emittable {extraction : Extraction} (h : extraction.Closed) :
    extraction.Emittable where
  zod := (emits_emit h .zod).exists_ok (absurd rfl)
  zodModule exported rootName := (emits_emitModule h .zod exported rootName).exists_ok (absurd rfl)
  graph := SchemaGraph.exists_ofNode h
  emit dialect := (emits_emit h dialect).ne_unresolved
  definitions dialect exported := (emits_emitDefinitions h dialect exported).ne_unresolved
  modules dialect exported rootName := (emits_emitModule h dialect exported rootName).ne_unresolved
  typeExpr := (TypeAlias.emits_ofNode h).ne_unresolved
  aliases := (TypeAlias.emits_ofDefinitions h).ne_unresolved
  declarations style rootName := (TypeAlias.emits_printModule h style rootName).ne_unresolved
  document graph root identifier _ he :=
    graph.faults_document root _ he (.unresolvedReference identifier) rfl identifier rfl

namespace TypeStore

open Checker

/-- Whatever is extracted from a store is closed and finished, and can be emitted. -/
theorem extract_closed (store : TypeStore) (policy : Policy) (type : TypeId)
    (extraction : Extraction) (h : store.checker.extract policy type = .ok extraction) :
    extraction.Closed ∧
      (store.checker.registryOf policy type).pending = [] ∧
      (∀ identifier definition, extraction.definitions.get? identifier = some definition →
        definition.node ≠ .unknown) ∧
      ((∀ other, ((store.describe other).properties.map Property.name).Nodup) →
        extraction.Connected) ∧
      extraction.Emittable := by
  -- everything is read off the registry that the walk leaves behind
  obtain ⟨root, s, hvisits, hregistry, rfl⟩ := exists_visits_of_extract h
  obtain ⟨hsound, -, hroot⟩ := hvisits.sound .empty
  have hpending := hvisits.pending_eq_nil
  have hclosed := policy.closed_finish (closed_of_reads hsound hpending hroot)
  refine ⟨hclosed, hregistry ▸ hpending, ?_, ?_, hclosed.emittable⟩
  · intro identifier definition hd hunknown
    -- a placeholder is not put together from parts
    have hcomposite := policy.isComposite_finish (fun _ _ => hsound.isComposite hpending) hd
    rw [hunknown] at hcomposite
    cases hcomposite
  · exact fun hdistinct => policy.connected_finish (connected_of_visits hvisits hdistinct)

/-- The interface `Tree` with `Tree`s as `children`. -/
def tree : TypeStore :=
  let (tree, store) := declareInterface {} "Tree"
  let (children, store) := store.reference "Array" [tree]
  let (body, store) := store.object { properties := [⟨"children", children, false⟩] }
  store.define tree body

/-- A `Tree` is met inside of its own body, so it does not stand in place. -/
def treeExtraction : Extraction where
  root := .reference "Tree" (some "Tree")
  definitions := .ofList [("Tree",
    ⟨.object [("children", .array (.reference "Tree" (some "Tree")))], some "Tree"⟩)]

theorem tree_closed :
    tree.checker.extract .aliasesOnly 0 = .ok treeExtraction ∧ treeExtraction.Closed ∧
      treeExtraction.Emittable := by
  have h : tree.checker.extract .aliasesOnly 0 = .ok treeExtraction := rfl
  obtain ⟨hclosed, -, -, -, hemittable⟩ := extract_closed tree .aliasesOnly 0 treeExtraction h
  exact ⟨h, hclosed, hemittable⟩

end TypeStore

end TypeGraph
