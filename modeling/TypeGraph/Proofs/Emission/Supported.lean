import TypeGraph.Proofs.Emission.Faults
import TypeGraph.Proofs.SchemaGraph.Ends

/-!
# What the targets take

A node is written for a target exactly if the target has a construct for each of its parts and the
references in it have definitions. Schemas have constructs for all parts, but go on to the
definitions.

The emitters do not write every part as it stands: what fills an optional place is what is left of a
union without `undefined`. Nothing that matters to them is left out by this, as unions and
`undefined` are written for all targets.

Main results:

* `Node.occurs_withoutUndefined_iff`: the other parts of a node are parts of what is left of it.
* `Validator.Zod.exists_missing`: Zod stops at the first reference without a definition.
* `emitters_accept`: what is taken for each target.
-/

namespace TypeGraph

open Relation

variable {definitions : DefinitionMap} {node : Node}

/-! ## Parts of what is left -/

/-- Taking `undefined` away from a node takes away nothing but unions and `undefined`. -/
theorem Node.occurs_withoutUndefined_iff {part : Node} (hunion : part.kind ≠ .union)
    (hundefined : part ≠ .undefined) (node : Node) :
    (∃ kept, node.withoutUndefined = some kept ∧ Occurs part kept) ↔ Occurs part node := by
  refine exists_withoutUndefined_iff (fun first rest => ?_) ?_ node
  · -- a union is none of these parts, so they stand in its members
    rw [occurs_iff, or_iff_right]
    · rfl
    · rintro rfl
      exact hunion rfl
  · rw [occurs_iff]
    rintro (h | ⟨child, hc, -⟩)
    · exact hundefined h
    · exact absurd hc List.not_mem_nil

/-! ## References -/

/-- All references in the node have definitions. -/
def DefinitionMap.Defines (definitions : DefinitionMap) (node : Node) : Prop :=
  ∀ identifier displayName, Node.Occurs (.reference identifier displayName) node →
    identifier ∈ definitions.keys

theorem DefinitionMap.defines_iff :
    definitions.Defines node ↔ ∀ identifier ∈ node.mentions, identifier ∈ definitions.keys := by
  constructor
  · intro h identifier hi
    obtain ⟨displayName, ho⟩ := Node.mem_mentions_iff.mp hi
    exact h identifier displayName ho
  · exact fun h identifier displayName ho =>
      h identifier (Node.mem_mentions_iff.mpr ⟨displayName, ho⟩)

/-- The errors of references are those of the identifiers without definitions, in the order of
mention. -/
theorem errors_dangling (definitions : DefinitionMap) (node : Node) :
    node.errors (dangling definitions) =
      (node.mentions.filter fun identifier => !definitions.contains identifier).map
        .unresolvedReference := by
  -- references have errors of their own, all other nodes have those of their children
  induction node using Node.inductionOnReferences with
  | reference identifier displayName =>
    rw [Node.errors_eq, dangling, Node.mentions, List.filter_singleton]
    cases definitions.contains identifier with
    | true => rfl
    | false => rfl
  | parts node hk ih =>
    have hnone : dangling definitions node = none := by
      cases node with
      | reference => exact absurd rfl hk
      | _ => rfl
    rw [Node.errors_of_none hnone, Node.mentions_eq hk, List.filter_flatMap, List.map_flatMap]
    exact List.flatMap_congr ih

/-- Parts that all are no dangling references are parts of a node whose references have
definitions. -/
theorem forall_dangling_iff :
    (∀ part, Node.Occurs part node → dangling definitions part = none) ↔
    definitions.Defines node := by
  rw [← Node.errors_eq_nil_iff, errors_dangling, List.map_eq_nil_iff, List.filter_eq_nil_iff,
    DefinitionMap.defines_iff]
  refine forall_congr' fun identifier => imp_congr_right fun _ => ?_
  rw [← OrderedMap.contains_iff]
  simp

theorem forall_obstacle_iff {target : Target} {lack : Node → Option Feature} :
    (∀ part, Node.Occurs part node → obstacle target lack definitions part = none) ↔
      definitions.Defines node ∧ ∀ part, Node.Occurs part node → lack part = none := by
  simp only [obstacle_eq_none_iff, ← forall_dangling_iff]
  exact ⟨fun h => ⟨fun part ho => (h part ho).2, fun part ho => (h part ho).1⟩,
    fun h part ho => ⟨h.2 part ho, h.1 part ho⟩⟩

/-! ## Zod -/

namespace Validator

/-- The text of a validator is there if the validator is. -/
theorem exists_emit_iff {dialect : Dialect} :
    (∃ text, emit dialect definitions node = .ok text) ↔
      ∃ expr, expression dialect definitions node = .ok expr := by
  rw [emit]
  cases expression dialect definitions node with
  | ok expr => exact iff_of_true ⟨_, rfl⟩ ⟨_, rfl⟩
  | error error => exact iff_of_false (fun h => nomatch h) (fun h => nomatch h)

theorem Zod.exists_emit_iff :
    (∃ text, emit .zod definitions node = .ok text) ↔ definitions.Defines node := by
  rw [Validator.exists_emit_iff, expression, (stops_ofNode definitions node).meets.exists_ok_iff,
    Node.errors_eq_nil_iff, forall_dangling_iff]

/-- Zod stops at the first reference without a definition. -/
theorem Zod.exists_missing (h : ¬ definitions.Defines node) :
    ∃ identifier, (node.mentions.find? fun identifier => !definitions.contains identifier) =
      some identifier ∧
      emit .zod definitions node = .error (.unresolvedReference identifier) := by
  have hstops := stops_ofNode definitions node
  have hfails := mt exists_emit_iff.mp h
  -- so there is an error, and it is the first of those in the node
  rw [Validator.exists_emit_iff, expression] at hfails
  rw [emit, expression]
  cases hresult : ofNode definitions node with
  | ok expr => exact absurd ⟨expr, hresult⟩ hfails
  | error error =>
    rw [hresult] at hstops
    have hhead : (node.errors (dangling definitions)).head? = some error := hstops
    rw [errors_dangling, List.head?_map, List.head?_filter] at hhead
    obtain ⟨identifier, hfirst, rfl⟩ := Option.map_eq_some_iff.mp hhead
    exact ⟨identifier, hfirst, rfl⟩

/-! ## TypeBox -/

namespace TypeBox

/-- The parts that TypeBox has no construct for. -/
inductive Unsupported : Node → Prop
  | bigint : Unsupported (.primitive .bigint)
  | bigintLiteral (value : Int) : Unsupported (.literal (.bigint value))
  | set (element : Node) : Unsupported (.set element)
  | map (key value : Node) : Unsupported (.map key value)
  /-- A tuple with an optional union among its elements. -/
  | optionalElement {first member : Node} {rest others : List Node}
      (mem : .union member others ∈ first :: rest)
      (optional : (Node.union member others).isOptional = true) :
      Unsupported (.tuple first rest)

theorem isOptionalUnion_iff : isOptionalUnion node = true ↔
    ∃ member others, node = .union member others ∧
    (Node.union member others).isOptional = true := by
  cases node with
  | union member others => exact ⟨fun h => ⟨member, others, rfl, h⟩, fun ⟨_, _, heq, h⟩ => heq ▸ h⟩
  | _ => exact iff_of_false Bool.false_ne_true (fun h => nomatch h)

theorem Unsupported.lack_ne_none {part : Node} (h : Unsupported part) : lack part ≠ none := by
  cases h with
  | bigint | bigintLiteral | set | map => exact Option.some_ne_none _
  | optionalElement mem optional =>
    have hunion := isOptionalUnion_iff.mpr ⟨_, _, rfl, optional⟩
    rw [lack, if_pos (List.any_eq_true.mpr ⟨_, mem, hunion⟩)]
    exact Option.some_ne_none _

theorem lack_eq_none_iff {part : Node} : lack part = none ↔ ¬ Unsupported part := by
  refine ⟨fun h hunsupported => hunsupported.lack_ne_none h, fun h => ?_⟩
  unfold lack
  split
  · exact absurd .bigint h
  · exact absurd (.bigintLiteral _) h
  · exact absurd (.set _) h
  · exact absurd (.map _ _) h
  · rw [if_neg]
    intro hany
    obtain ⟨element, hm, hunion⟩ := List.any_eq_true.mp hany
    obtain ⟨member, others, rfl, hoptional⟩ := isOptionalUnion_iff.mp hunion
    exact h (.optionalElement hm hoptional)
  · rfl

theorem exists_emit_iff :
    (∃ text, emit .typeBox definitions node = .ok text) ↔
      definitions.Defines node ∧ ∀ part, Node.Occurs part node → ¬ Unsupported part := by
  rw [Validator.exists_emit_iff, expression, (meets_ofNode definitions node).exists_ok_iff,
    Node.errors_eq_nil_iff, forall_obstacle_iff]
  simp only [lack_eq_none_iff]

/-- A set in an optional property is met in what fills the property. -/
example :
    emit .typeBox .empty (.object [("tags", .union (.set (.primitive .string)) [.undefined])]) =
      .error (.unsupportedFeature .typeBox (.kind .set)) := by cbv

end TypeBox

end Validator

/-! ## TypeScript -/

namespace TypeExpr

theorem exists_ofNode_iff :
    (∃ type, ofNode definitions node = .ok type) ↔
      definitions.Defines node ∧
        ∀ value : Binary64, Node.Occurs (.literal (.number value)) node →
        value.isFinite = true := by
  rw [(stops_ofNode definitions node).meets.exists_ok_iff, Node.errors_eq_nil_iff,
    forall_obstacle_iff]
  -- TypeScript lacks something for number literals only
  refine and_congr_right' ⟨fun h value ho => ?_, fun h part ho => ?_⟩
  · have hnone := h _ ho
    rw [lack] at hnone
    split at hnone
    · assumption
    · cases hnone
  · cases part with
    | literal value =>
      cases value with
      | number value => exact if_pos (h value ho)
      | _ => rfl
    | _ => rfl

end TypeExpr

/-! ## All targets -/

/-- A node is taken by the targets that have constructs for its parts, if its references have
definitions; for schemas all that it leads to has definitions. Zod tells the first reference without
one. Taking `undefined` away from a node hides none of the parts that this is about. -/
theorem emitters_accept (definitions : DefinitionMap) (node : Node) :
    ((∃ text, Validator.emit .zod definitions node = .ok text) ↔ definitions.Defines node) ∧
    (¬ definitions.Defines node → ∃ identifier,
      (node.mentions.find? fun identifier => !definitions.contains identifier) = some identifier ∧
        Validator.emit .zod definitions node = .error (.unresolvedReference identifier)) ∧
    ((∃ text, Validator.emit .typeBox definitions node = .ok text) ↔
      definitions.Defines node ∧ ∀ part, Node.Occurs part node →
      ¬ Validator.TypeBox.Unsupported part) ∧
    ((∃ type, TypeExpr.ofNode definitions node = .ok type) ↔
      definitions.Defines node ∧
        ∀ value : Binary64, Node.Occurs (.literal (.number value)) node → value.isFinite = true) ∧
    ((∃ graph root, SchemaGraph.ofNode definitions node = .ok (graph, root)) ↔
      ∀ mentioned ∈ node.mentions, ∀ identifier,
        ReflTransGen definitions.Refers mentioned identifier → identifier ∈ definitions.keys) ∧
    ∀ part : Node, part.kind ≠ .union → part ≠ .undefined →
      ((∃ kept, node.withoutUndefined = some kept ∧ Node.Occurs part kept) ↔
        Node.Occurs part node) :=
  ⟨Validator.Zod.exists_emit_iff, Validator.Zod.exists_missing, Validator.TypeBox.exists_emit_iff,
    TypeExpr.exists_ofNode_iff, SchemaGraph.exists_ofNode_iff,
    fun _ hunion hundefined => Node.occurs_withoutUndefined_iff hunion hundefined node⟩

end TypeGraph
