import TypeGraph.Proofs.Definition.Inlining
import TypeGraph.Proofs.Emission.Faults
import TypeGraph.TypeExpr.Printer

/-!
# Modules of closed extractions

In a closed extraction, every reference names a definition. So Zod writes it in every form, and no
other target fails for a reference.

Main results:

* `Validator.emits_emitModule`, `TypeAlias.emits_printModule`: no module fails for a reference.
-/

namespace TypeGraph

/-! ## Definitions in order -/

namespace DefinitionMap

/-- The walk leaves only what it was to leave or has come to. -/
theorem mem_visitAll {definitions : DefinitionMap} {unseen : List String} {visits : List Visit}
    {identifier : String} (h : identifier ∈ definitions.visitAll unseen visits) :
    identifier ∈ unseen ∨ Visit.leave identifier ∈ visits := by
  -- induction on the steps of the walk
  induction unseen, visits using visitAll.induct definitions with
  | case1 unseen =>
    rw [visitAll] at h
    exact absurd h List.not_mem_nil
  | case2 unseen other rest ih =>
    rw [visitAll] at h
    rcases List.mem_cons.mp h with rfl | h
    · exact .inr List.mem_cons_self
    · exact (ih h).imp id (List.mem_cons_of_mem _)
  | case3 unseen other rest hunseen _ ih =>
    rw [visitAll, dif_pos hunseen] at h
    rcases ih h with h | h
    · exact .inl (List.mem_of_mem_erase h)
    · -- the references are visited next, and the definition is left after them
      simp only [List.mem_append, List.mem_map, List.mem_cons] at h
      rcases h with ⟨_, -, h⟩ | h | h
      · cases h
      · cases h
        exact .inl hunseen
      · exact .inr (List.mem_cons_of_mem _ h)
  | case4 unseen other rest hseen ih =>
    rw [visitAll, dif_neg hseen] at h
    exact (ih h).imp id (List.mem_cons_of_mem _)

theorem mem_keys_of_mem_dependencyOrder {definitions : DefinitionMap} {identifier : String}
    (h : identifier ∈ definitions.dependencyOrder) : identifier ∈ definitions.keys := by
  refine (mem_visitAll h).resolve_right ?_
  intro hleave
  obtain ⟨_, -, h⟩ := List.mem_map.mp hleave
  cases h

end DefinitionMap

/-! ## Validators -/

namespace Validator

theorem emits_expression (dialect : Dialect) (definitions : DefinitionMap) (node : Node) :
    Emits definitions (dialect ≠ .zod) node.mentions (expression dialect definitions node) := by
  cases dialect with
  | zod => exact (Zod.emits_ofNode definitions node).imp False.elim
  | typeBox => exact (TypeBox.emits_ofNode definitions node).imp fun _ h => by cases h

section

variable {extraction : Extraction} (h : extraction.Closed) (dialect : Dialect) (exported : Bool)

include h

theorem emits_root :
    Emits extraction.definitions (dialect ≠ .zod) []
      (expression dialect extraction.definitions extraction.root) :=
  Emits.of_mem_keys (emits_expression dialect _ _) h.root.mem_keys

theorem emits_emit :
    Emits extraction.definitions (dialect ≠ .zod) []
      (emit dialect extraction.definitions extraction.root) :=
  (emits_root h dialect).map _

theorem emits_definitionOf {identifier : String}
    (hi : identifier ∈ extraction.definitions.keys) :
    Emits extraction.definitions (dialect ≠ .zod) []
      (definitionOf dialect exported extraction.definitions identifier) := by
  -- the definition is there, and its body is closed
  obtain ⟨definition, hd⟩ := OrderedMap.mem_keys_iff.mp hi
  rw [definitionOf, DefinitionMap.node?, hd, Option.map_some]
  exact (Emits.of_mem_keys (emits_expression dialect _ _) (h.bodies _ _ hd).mem_keys).map _

theorem emits_emitDefinitions :
    Emits extraction.definitions (dialect ≠ .zod) []
      (emitDefinitions dialect exported extraction.definitions) :=
  Faults.mapM fun _ hi => emits_definitionOf h dialect exported hi

theorem emits_emitModule (rootName : String) :
    Emits extraction.definitions (dialect ≠ .zod) []
      (emitModule dialect exported extraction.definitions extraction.root rootName) := by
  have hlines : Emits extraction.definitions (dialect ≠ .zod) []
      (extraction.definitions.dependencyOrder.mapM
        (definitionOf dialect exported extraction.definitions)) :=
    Faults.mapM fun _ hi =>
      emits_definitionOf h dialect exported (DefinitionMap.mem_keys_of_mem_dependencyOrder hi)
  have hmodule : Emits extraction.definitions (dialect ≠ .zod) []
      (moduleLines dialect exported extraction.definitions extraction.root rootName) :=
    hlines.append fun _ => (emits_root h dialect).map _
  exact hmodule.map _

end

end Validator

/-! ## Declarations -/

namespace TypeAlias

variable {extraction : Extraction} (h : extraction.Closed)

include h

theorem emits_ofNode :
    Emits extraction.definitions True []
      (TypeExpr.ofNode extraction.definitions extraction.root) :=
  Emits.of_mem_keys (TypeExpr.emits_ofNode _ _) h.root.mem_keys

theorem emits_ofDefinitions :
    Emits extraction.definitions True [] (ofDefinitions extraction.definitions) := by
  refine Faults.mapM ?_
  intro entry he
  have hd := OrderedMap.get?_eq_some_iff.mpr he
  exact (Emits.of_mem_keys (TypeExpr.emits_ofNode _ _) (h.bodies _ _ hd).mem_keys).map _

theorem emits_printModule (style : DeclarationStyle) (rootName : String) :
    Emits extraction.definitions True []
      (printModule style extraction.definitions extraction.root rootName) := by
  have hmodule : Emits extraction.definitions True []
      (ofModule extraction.definitions extraction.root rootName) :=
    (emits_ofDefinitions h).append fun _ => (emits_ofNode h).map _
  exact hmodule.map _

end TypeAlias

end TypeGraph
