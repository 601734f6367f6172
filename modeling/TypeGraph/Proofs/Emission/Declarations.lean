import TypeGraph.Proofs.Definition.Dependencies
import TypeGraph.Proofs.Lists
import TypeGraph.Validator.Module

/-!
# Declarations in order

A module declares what the definitions and the root are as constants. It says the same as the
declarations of the definitions one by one, followed by that of the root; only the order is another,
so that a constant is declared before its use wherever no cycle of references stands against it.

Main results:

* `Validator.emitModule_dependenciesFirst`: when there is a module, and which declarations it has in
  which order.
-/

namespace TypeGraph.Validator

variable {dialect : Dialect} {exported : Bool} {definitions : DefinitionMap}

variable (exported) in
/-- The declarations of some definitions, in the order of their identifiers. -/
theorem mapM_definitionOf {identifiers : List String} {bodies : String → Expr}
    (hkeys : ∀ identifier ∈ identifiers, identifier ∈ definitions.keys)
    (h : ∀ identifier node, definitions.node? identifier = some node →
      expression dialect definitions node = .ok (bodies identifier)) :
    identifiers.mapM (definitionOf dialect exported definitions) =
      .ok (identifiers.map fun identifier =>
        declaration exported identifier (bodies identifier)) := by
  refine mapM_eq_map fun identifier hi => ?_
  obtain ⟨node, hnode⟩ :=
    Option.isSome_iff_exists.mp (DefinitionMap.node?_isSome_iff.mpr (hkeys _ hi))
  rw [definitionOf, hnode]
  simp only [h identifier node hnode]
  rfl

/-- If the declarations of all definitions can be written, every body has its expression. -/
theorem exists_bodies {identifiers lines : List String}
    (hkeys : ∀ identifier ∈ definitions.keys, identifier ∈ identifiers)
    (h : identifiers.mapM (definitionOf dialect exported definitions) = .ok lines) :
    ∃ bodies : String → Expr, ∀ identifier node, definitions.node? identifier = some node →
      expression dialect definitions node = .ok (bodies identifier) := by
  have hbody : ∀ identifier, ∃ body, ∀ node, definitions.node? identifier = some node →
      expression dialect definitions node = .ok body := by
    intro identifier
    cases hnode : definitions.node? identifier with
    | none => exact ⟨.array [], fun node hnone => by cases hnone⟩
    | some node =>
      have hmem := hkeys identifier (DefinitionMap.node?_isSome_iff.mp (by rw [hnode]; rfl))
      obtain ⟨line, -, hline⟩ := exists_of_mem_forall₂ (forall₂_of_mapM h) hmem
      rw [definitionOf, hnode] at hline
      obtain ⟨body, hbody, -⟩ := exists_of_bind_eq_ok hline
      exact ⟨body, fun other ho => by cases ho; exact hbody⟩
  exact ⟨fun identifier => (hbody identifier).choose,
    fun identifier => (hbody identifier).choose_spec⟩

/-- A module is written exactly if all definitions and the root are. -/
theorem emitModule_eq_ok_iff {root : Node} {rootName text : String} :
    emitModule dialect exported definitions root rootName = .ok text ↔
      ∃ lines expr,
        definitions.dependencyOrder.mapM (definitionOf dialect exported definitions) = .ok lines ∧
        expression dialect definitions root = .ok expr ∧
        text = "\n".intercalate (lines ++ [declaration exported rootName expr]) ++ "\n" := by
  unfold emitModule moduleLines
  constructor
  · intro h
    obtain ⟨all, hall, h⟩ := exists_of_bind_eq_ok h
    obtain ⟨lines, hlines, hall⟩ := exists_of_bind_eq_ok hall
    obtain ⟨expr, hexpr, hall⟩ := exists_of_bind_eq_ok hall
    cases hall
    cases h
    exact ⟨lines, expr, hlines, hexpr, rfl⟩
  · rintro ⟨lines, expr, hlines, hexpr, rfl⟩
    rw [hlines, hexpr]
    rfl

/-- There is a module exactly if the definitions and the root can be written. It has the
declarations of the definitions, in an order in which each comes after what it refers to and cannot
be reached from, and behind them that of the root; where no definition refers to a later one, the
order is that of registration. -/
theorem emitModule_dependenciesFirst (dialect : Dialect) (exported : Bool)
    (definitions : DefinitionMap) (root : Node) (rootName : String) :
    ((∃ text, emitModule dialect exported definitions root rootName = .ok text) ↔
        (∃ lines, emitDefinitions dialect exported definitions = .ok lines) ∧
          ∃ text, emit dialect definitions root = .ok text) ∧
      (∀ text, emitModule dialect exported definitions root rootName = .ok text →
        ∃ (bodies : String → Expr) (rootExpr : Expr),
          (∀ identifier node, definitions.node? identifier = some node →
            expression dialect definitions node = .ok (bodies identifier)) ∧
          emitDefinitions dialect exported definitions = .ok (definitions.keys.map fun identifier =>
            declaration exported identifier (bodies identifier)) ∧
          emit dialect definitions root = .ok rootExpr.text ∧
          text = "\n".intercalate ((definitions.dependencyOrder.map fun identifier =>
              declaration exported identifier (bodies identifier)) ++
            [declaration exported rootName rootExpr]) ++ "\n") ∧
      definitions.dependencyOrder.Perm definitions.keys ∧
      (∀ identifier other, other ≠ identifier → other ∈ definitions.keys →
        definitions.Refers identifier other →
        ¬ Relation.TransGen definitions.Refers other identifier →
        [other, identifier].Sublist definitions.dependencyOrder) ∧
      ((definitions.keys.Pairwise fun earlier later => ¬ definitions.Refers earlier later) →
        definitions.dependencyOrder = definitions.keys) := by
  have hperm := definitions.dependencyOrder_perm
  refine ⟨⟨?_, ?_⟩, ?_, hperm, fun identifier other hne ho hrefers hback =>
    DefinitionMap.before_of_refers hrefers ho hne hback, DefinitionMap.dependencyOrder_eq_keys⟩
  · rintro ⟨text, h⟩
    obtain ⟨lines, expr, hlines, hexpr, -⟩ := emitModule_eq_ok_iff.mp h
    obtain ⟨bodies, hbodies⟩ := exists_bodies (fun _ => hperm.mem_iff.mpr) hlines
    refine ⟨⟨_, mapM_definitionOf exported (fun _ => id) hbodies⟩, expr.text, ?_⟩
    rw [emit, hexpr]
    rfl
  · rintro ⟨⟨lines, hlines⟩, text, htext⟩
    obtain ⟨bodies, hbodies⟩ := exists_bodies (fun _ => id) hlines
    obtain ⟨expr, hexpr, -⟩ := exists_of_bind_eq_ok htext
    have horder := mapM_definitionOf exported (fun _ => hperm.mem_iff.mp) hbodies
    exact ⟨_, emitModule_eq_ok_iff.mpr ⟨_, expr, horder, hexpr, rfl⟩⟩
  · intro text h
    obtain ⟨lines, expr, hlines, hexpr, rfl⟩ := emitModule_eq_ok_iff.mp h
    obtain ⟨bodies, hbodies⟩ := exists_bodies (fun _ => hperm.mem_iff.mpr) hlines
    refine ⟨bodies, expr, hbodies, mapM_definitionOf exported (fun _ => id) hbodies, ?_, ?_⟩
    · rw [emit, hexpr]
      rfl
    · -- the lines are the declarations in the order of dependencies
      rw [mapM_definitionOf exported (fun _ => hperm.mem_iff.mp) hbodies] at hlines
      cases hlines
      rfl

end TypeGraph.Validator
