import TypeGraph.Proofs.Emission.Passes
import TypeGraph.Proofs.Node.Occurs
import TypeGraph.Validator.Module

/-!
# Where emission fails

The emitters go through a node and fail at a part that they cannot write. Which parts these are is
said by a function from parts to errors for each target, and `Node.errors` lists the errors in a
node: an emitter fails exactly if there is one, and then for one of them (`Meets`), most emitters
for the first (`Stops`).

An optional place is emitted by what is left of its node, which has the same errors and mentions the
same identifiers.

Main results:

* `Validator.Zod.stops_ofNode`, `Validator.TypeBox.meets_ofNode`, `TypeExpr.stops_ofNode`: which
  errors the emitters of expressions and types fail for, and that they fail for no other reason.
* `Emits.of_meets`: in terms of what is mentioned, the errors are missing definitions and, for the
  targets that lack constructs, unsupported features. Zod lacks none.
-/

namespace TypeGraph

/-! ## Errors of computations -/

/-- The computation fails only for reasons that are allowed. -/
def Faults {ε α : Type} (allowed : ε → Prop) (result : Except ε α) : Prop :=
  ∀ error, result = .error error → allowed error

section

variable {ε α β : Type} {allowed allowed' : ε → Prop} {result : Except ε α}

theorem Faults.pure (value : α) : Faults allowed (Pure.pure value : Except ε α) := by
  intro error h
  cases h

theorem Faults.throw {error : ε} (h : allowed error) :
    Faults allowed (throw error : Except ε α) := by
  intro error' h'
  cases h'
  exact h

theorem Faults.bind {f : α → Except ε β} (h : Faults allowed result)
    (hf : ∀ value, Faults allowed (f value)) : Faults allowed (result >>= f) := by
  intro error he
  cases result with
  | ok value => exact hf value error he
  | error error' =>
    cases he
    exact h error rfl

theorem Faults.mono (h : Faults allowed result) (himp : ∀ error, allowed error → allowed' error) :
    Faults allowed' result := fun error he => himp error (h error he)

/-- Without a reason to fail there is a value. -/
theorem Faults.exists_ok (h : Faults allowed result) (hnone : ∀ error, ¬ allowed error) :
    ∃ value, result = .ok value := by
  cases result with
  | ok value => exact ⟨value, rfl⟩
  | error error => exact absurd (h error rfl) (hnone error)

theorem Faults.mapM {ι : Type} {items : List ι} {f : ι → Except ε α}
    (h : ∀ item ∈ items, Faults allowed (f item)) : Faults allowed (items.mapM f) := by
  induction items with
  | nil =>
    rw [List.mapM_nil]
    exact .pure _
  | cons item rest ih =>
    rw [List.mapM_cons]
    refine (h item List.mem_cons_self).bind ?_
    intro value
    exact (ih fun other ho => h other (List.mem_cons_of_mem _ ho)).bind fun values => .pure _

end

/-! ## Errors in nodes -/

namespace Node

section

variable {own : Node → Option Error}

/-- The errors of the parts of a node, in order. -/
def errors (own : Node → Option Error) (node : Node) : List Error := node.subnodes.filterMap own

theorem errors_eq (own : Node → Option Error) (node : Node) :
    node.errors own = (own node).toList ++ node.children.flatMap (errors own) := by
  rw [errors, subnodes_eq, List.filterMap_cons, List.filterMap_flatMap]
  cases own node <;> rfl

theorem errors_of_none {node : Node} (h : own node = none) :
    node.errors own = node.children.flatMap (errors own) := by
  rw [errors_eq, h]
  rfl

theorem errors_of_some {node : Node} {error : Error} (h : own node = some error) :
    node.errors own = error :: node.children.flatMap (errors own) := by
  rw [errors_eq, h]
  rfl

theorem mem_errors_iff {node : Node} {error : Error} :
    error ∈ node.errors own ↔ ∃ part, Occurs part node ∧ own part = some error := by
  simp only [errors, List.mem_filterMap, mem_subnodes_iff]

theorem errors_eq_nil_iff {node : Node} :
    node.errors own = [] ↔ ∀ part, Occurs part node → own part = none := by
  simp only [errors, List.filterMap_eq_nil_iff, mem_subnodes_iff]

end

/-! ### What is left of optional nodes -/

section

variable {β : Type} {f : Node → List β}
  (hleft : ∀ node, node.withoutUndefined.toList.flatMap f = f node)

include hleft

/-- What is read off what is left of a node is read off what fills an optional place. -/
theorem eq_of_presence {node content : Node} {smaller : sizeOf content < sizeOf node}
    (h : node.presence = .optional content smaller) : f content = f node := by
  rcases node.presence_cases with ⟨-, hp⟩ | ⟨-, -, hp⟩ | ⟨kept, _, -, hkept, hp⟩
  · cases hp.symm.trans h
  · cases hp.symm.trans h
  · cases hp.symm.trans h
    rw [← hleft node, hkept, Option.toList_some, List.flatMap_singleton]

theorem eq_nil_of_vacant {node : Node} (h : node.presence = .vacant) : f node = [] := by
  rcases node.presence_cases with ⟨-, hp⟩ | ⟨-, hkept, -⟩ | ⟨kept, _, -, -, hp⟩
  · cases hp.symm.trans h
  · rw [← hleft node, hkept, Option.toList_none, List.flatMap_nil]
  · cases hp.symm.trans h

end

theorem flatMap_mentions_withoutUndefined (node : Node) :
    node.withoutUndefined.toList.flatMap mentions = node.mentions :=
  flatMap_withoutUndefined (fun _ _ => mentions_eq Kind.noConfusion) rfl node

/-- What is left of a node mentions what the node mentions. -/
theorem mentions_withoutUndefined (node : Node) :
    mentionsInOption node.withoutUndefined = node.mentions := by
  rw [← flatMap_mentions_withoutUndefined node]
  cases node.withoutUndefined with
  | none => rfl
  | some kept => exact (List.flatMap_singleton ..).symm

/-- What fills an optional place mentions what the node in the place mentions. -/
theorem mentions_of_presence {node content : Node} {smaller : sizeOf content < sizeOf node}
    (h : node.presence = .optional content smaller) : content.mentions = node.mentions :=
  eq_of_presence flatMap_mentions_withoutUndefined h

/-- Unions and `undefined` have no errors of their own. -/
structure Overlooks (own : Node → Option Error) : Prop where
  union : ∀ first rest, own (union first rest) = none
  undefined : own undefined = none

/-- What is left of a node has the errors of the node. -/
theorem Overlooks.errors_withoutUndefined {own : Node → Option Error} (h : Overlooks own)
    (node : Node) : node.withoutUndefined.toList.flatMap (errors own) = node.errors own :=
  flatMap_withoutUndefined (fun first rest => errors_of_none (h.union first rest))
    (errors_of_none h.undefined) node

end Node

/-- The result is the first of the errors, or a value if there are none. -/
def Stops {α : Type} (errors : List Error) (result : Except Error α) : Prop :=
  match result with
  | .ok _ => errors = []
  | .error error => errors.head? = some error

/-- The result is one of the errors, or a value if there are none. -/
def Meets {α : Type} (errors : List Error) (result : Except Error α) : Prop :=
  match result with
  | .ok _ => errors = []
  | .error error => error ∈ errors

section

variable {α β : Type} {errors more : List Error} {result : Except Error α}

theorem Stops.pure (value : α) : Stops [] (Pure.pure value : Except Error α) := rfl

theorem Stops.throw (error : Error) : Stops (error :: errors) (throw error : Except Error α) := rfl

theorem Stops.map (h : Stops errors result) (f : α → β) :
    Stops errors (result >>= fun value => Pure.pure (f value)) := by
  cases result with
  | ok value => exact h
  | error error => exact h

/-- One part after the other. -/
theorem Stops.append {f : α → Except Error β} (h : Stops errors result)
    (hf : ∀ value, Stops more (f value)) : Stops (errors ++ more) (result >>= f) := by
  cases result with
  | ok value =>
    obtain rfl : errors = [] := h
    exact hf value
  | error error =>
    -- the first error of the first part is the first of all
    have h : errors.head? = some error := h
    refine (List.head?_append ..).trans ?_
    rw [h]
    rfl

/-- Of a pass over a list, the first error is that of the first item that has one. -/
theorem Stops.mapM {ι : Type} {items : List ι} {f : ι → Except Error α} {errorsOf : ι → List Error}
    (h : ∀ item ∈ items, Stops (errorsOf item) (f item)) :
    Stops (items.flatMap errorsOf) (items.mapM f) := by
  induction items with
  | nil =>
    rw [List.mapM_nil]
    exact .pure _
  | cons item rest ih =>
    rw [List.mapM_cons, List.flatMap_cons]
    refine (h item List.mem_cons_self).append fun value => ?_
    exact (ih fun other ho => h other (List.mem_cons_of_mem _ ho)).map _

theorem Stops.mapM_values {ι κ : Type} {pairs : List (κ × ι)} {f : ι → Except Error α}
    {errorsOf : ι → List Error} (h : ∀ item ∈ pairs.map Prod.snd, Stops (errorsOf item) (f item)) :
    Stops ((pairs.map Prod.snd).flatMap errorsOf)
      (pairs.mapM fun pair => return (pair.1, ← f pair.2)) := by
  rw [List.flatMap_map]
  exact .mapM fun pair hm => (h pair.2 (List.mem_map_of_mem hm)).map _

theorem Stops.meets (h : Stops errors result) : Meets errors result := by
  cases result with
  | ok value => exact h
  | error error => exact List.mem_of_head? h

theorem Meets.pure (value : α) : Meets [] (Pure.pure value : Except Error α) := rfl

theorem Meets.throw (error : Error) : Meets (error :: errors) (throw error : Except Error α) :=
  List.mem_cons_self

theorem Meets.map (h : Meets errors result) (f : α → β) :
    Meets errors (result >>= fun value => Pure.pure (f value)) := by
  cases result with
  | ok value => exact h
  | error error => exact h

theorem Meets.append {f : α → Except Error β} (h : Meets errors result)
    (hf : ∀ value, Meets more (f value)) : Meets (errors ++ more) (result >>= f) := by
  cases result with
  | ok value =>
    obtain rfl : errors = [] := h
    exact hf value
  | error error => exact List.mem_append_left _ h

theorem Meets.mapM {ι : Type} {items : List ι} {f : ι → Except Error α} {errorsOf : ι → List Error}
    (h : ∀ item ∈ items, Meets (errorsOf item) (f item)) :
    Meets (items.flatMap errorsOf) (items.mapM f) := by
  induction items with
  | nil =>
    rw [List.mapM_nil]
    exact .pure _
  | cons item rest ih =>
    rw [List.mapM_cons, List.flatMap_cons]
    refine (h item List.mem_cons_self).append fun value => ?_
    exact (ih fun other ho => h other (List.mem_cons_of_mem _ ho)).map _

theorem Meets.mapM_values {ι κ : Type} {pairs : List (κ × ι)} {f : ι → Except Error α}
    {errorsOf : ι → List Error} (h : ∀ item ∈ pairs.map Prod.snd, Meets (errorsOf item) (f item)) :
    Meets ((pairs.map Prod.snd).flatMap errorsOf)
      (pairs.mapM fun pair => return (pair.1, ← f pair.2)) := by
  rw [List.flatMap_map]
  exact .mapM fun pair hm => (h pair.2 (List.mem_map_of_mem hm)).map _

/-- One part before the other. -/
theorem Meets.append_comm (h : Meets (errors ++ more) result) : Meets (more ++ errors) result := by
  cases result with
  | ok value => exact List.append_eq_nil_iff.mpr (List.append_eq_nil_iff.mp h).symm
  | error error => exact List.mem_append.mpr (List.mem_append.mp h).symm

theorem Meets.exists_ok_iff (h : Meets errors result) :
    (∃ value, result = .ok value) ↔ errors = [] := by
  cases result with
  | ok value => exact iff_of_true ⟨value, rfl⟩ h
  | error error => exact iff_of_false (fun h => nomatch h) (List.ne_nil_of_mem h)

end

/-! ## References -/

/-- The error of a reference without a definition. -/
def dangling (definitions : DefinitionMap) : Node → Option Error
  | .reference identifier _ =>
    if definitions.contains identifier then none else some (.unresolvedReference identifier)
  | _ => none

theorem overlooks_dangling (definitions : DefinitionMap) : Node.Overlooks (dangling definitions) :=
  ⟨fun _ _ => rfl, rfl⟩

theorem dangling_eq_some {definitions : DefinitionMap} {part : Node} {error : Error}
    (h : dangling definitions part = some error) : ∃ identifier displayName,
      part = .reference identifier displayName ∧ definitions.contains identifier = false ∧
        error = .unresolvedReference identifier := by
  unfold dangling at h
  split at h
  · rename_i identifier displayName
    split at h
    · cases h
    · rename_i hcontains
      cases h
      exact ⟨identifier, displayName, rfl, by simpa using hcontains, rfl⟩
  · cases h

/-- The error of a part: a feature that the target lacks for it, or a reference without a
definition. -/
def obstacle (target : Target) (lack : Node → Option Feature) (definitions : DefinitionMap)
    (part : Node) : Option Error :=
  ((lack part).map (.unsupportedFeature target)).or (dangling definitions part)

section

variable {target : Target} {lack : Node → Option Feature} {definitions : DefinitionMap}

theorem obstacle_eq_none_iff {part : Node} :
    obstacle target lack definitions part = none ↔
    lack part = none ∧ dangling definitions part = none := by
  rw [obstacle, Option.or_eq_none_iff, Option.map_eq_none_iff]

theorem obstacle_cases {part : Node} {error : Error}
    (h : obstacle target lack definitions part = some error) :
    dangling definitions part = some error ∨
    ∃ feature, error = .unsupportedFeature target feature := by
  rcases Option.or_eq_some_iff.mp h with h | ⟨-, h⟩
  · obtain ⟨feature, -, rfl⟩ := Option.map_eq_some_iff.mp h
    exact .inr ⟨feature, rfl⟩
  · exact .inl h

end

/-- A reference stops the emission if it has no definition. -/
theorem Stops.reference {α : Type} {own : Node → Option Error} {definitions : DefinitionMap}
    {value : α} {identifier : String} {displayName : Option String}
    (h : own (.reference identifier displayName) =
      dangling definitions (.reference identifier displayName)) :
    Stops ((Node.reference identifier displayName).errors own)
      (if definitions.contains identifier then Pure.pure value
        else MonadExcept.throw (.unresolvedReference identifier)) := by
  rw [Node.errors_eq, h, dangling]
  split
  · exact .pure value
  · exact .throw _

/-! ## Emission -/

/-- The error is about a mentioned identifier without a definition. -/
def Missing (definitions : DefinitionMap) (mentioned : List String) (error : Error) : Prop :=
  ∃ identifier ∈ mentioned, definitions.contains identifier = false ∧
    error = .unresolvedReference identifier

/-- Emission fails only for a missing definition or, for a target that `lacks` constructs, for an
unsupported feature. -/
def Emits {α : Type} (definitions : DefinitionMap) (lacks : Prop) (mentioned : List String)
    (result : Except Error α) : Prop :=
  Faults (fun error => Missing definitions mentioned error ∨
    lacks ∧ ∃ target feature, error = .unsupportedFeature target feature) result

namespace Emits

variable {α β : Type} {definitions : DefinitionMap} {lacks : Prop} {mentioned more : List String}
variable {result : Except Error α}

theorem mono (h : Emits definitions lacks mentioned result) (hsub : mentioned ⊆ more) :
    Emits definitions lacks more result := by
  refine Faults.mono h ?_
  intro error
  rintro (⟨identifier, hi, hmissing⟩ | hlacks)
  · exact .inl ⟨identifier, hsub hi, hmissing⟩
  · exact .inr hlacks

theorem map (h : Emits definitions lacks mentioned result) (f : α → β) :
    Emits definitions lacks mentioned (result >>= fun value => Pure.pure (f value)) :=
  Faults.bind h fun _ => .pure _

/-- One part after the other. -/
theorem append {f : α → Except Error β} (h : Emits definitions lacks mentioned result)
    (hf : ∀ value, Emits definitions lacks more (f value)) :
    Emits definitions lacks (mentioned ++ more) (result >>= f) :=
  Faults.bind (h.mono (List.subset_append_left _ _)) fun value =>
    (hf value).mono (List.subset_append_right _ _)

/-- What has a definition need not be mentioned. -/
theorem of_mem_keys (h : Emits definitions lacks mentioned result)
    (hmentioned : ∀ identifier ∈ mentioned, identifier ∈ definitions.keys) :
    Emits definitions lacks [] result := by
  refine Faults.mono h ?_
  intro error
  rintro (⟨other, ho, hmissing, -⟩ | hlacks)
  · rw [OrderedMap.contains_iff.mpr (hmentioned other ho)] at hmissing
    cases hmissing
  · exact .inr hlacks

theorem imp {lacks' : Prop} (h : Emits definitions lacks mentioned result)
    (himp : lacks → lacks') : Emits definitions lacks' mentioned result :=
  Faults.mono h fun _ => Or.imp id (And.imp himp id)

/-- The errors of a target in a node, if each of them is allowed. -/
theorem of_meets {own : Node → Option Error} {node : Node} (h : Meets (node.errors own) result)
    (hown : ∀ part error, own part = some error → dangling definitions part = some error ∨
      lacks ∧ ∃ target feature, error = .unsupportedFeature target feature) :
    Emits definitions lacks node.mentions result := by
  intro error he
  subst he
  obtain ⟨part, hpart, herror⟩ := Node.mem_errors_iff.mp h
  refine (hown part error herror).imp ?_ id
  intro hdangling
  obtain ⟨identifier, displayName, rfl, hcontains, rfl⟩ := dangling_eq_some hdangling
  exact ⟨identifier, Node.mem_mentions_iff.mpr ⟨displayName, hpart⟩, hcontains, rfl⟩

/-- If nothing is missing, no reference is unresolved. -/
theorem ne_unresolved (h : Emits definitions lacks [] result) (identifier : String) :
    result ≠ .error (.unresolvedReference identifier) := by
  intro heq
  rcases h _ heq with ⟨other, ho, -⟩ | ⟨-, target, feature, h⟩
  · exact absurd ho List.not_mem_nil
  · cases h

/-- If nothing is missing, a target that lacks nothing has a result. -/
theorem exists_ok (h : Emits definitions lacks [] result) (hlacks : ¬ lacks) :
    ∃ value, result = .ok value := by
  refine Faults.exists_ok h ?_
  intro error
  rintro (⟨other, ho, -⟩ | ⟨h, -⟩)
  · exact absurd ho List.not_mem_nil
  · exact hlacks h

end Emits

/-! ## Zod -/

namespace Validator.Zod

theorem ofNode_union {definitions : DefinitionMap} (first second : Node) (rest : List Node) :
    ofNode definitions (.union first (second :: rest)) =
      match (Node.union first (second :: rest)).presence with
      | .optional content _ => return .call (← ofNode definitions content) "optional" []
      | _ =>
        return method "union" [.array ((← ofNode definitions first) ::
          (← ofAll definitions (second :: rest)))] := by
  rw [ofNode]
  · cases (Node.union first (second :: rest)).presence <;> rfl
  · exact List.cons_ne_nil _ _

variable (definitions : DefinitionMap)

/-- Zod has a construct for every part of a node, and stops at the first reference without a
definition. -/
theorem stops_ofNode (node : Node) :
    Stops (node.errors (dangling definitions)) (ofNode definitions node) := by
  have hpart (part : Node) (hsmaller : sizeOf part < sizeOf node) :
      Stops (part.errors (dangling definitions)) (ofNode definitions part) := stops_ofNode part
  have hchild (child : Node) (hc : child ∈ node.children) :=
    hpart child (Node.sizeOf_lt_of_mem_children hc)
  -- level by level: the errors of the parts come in the order in which the parts are written
  cases node with
  | primitive | literal =>
    rw [ofNode, Node.errors_of_none rfl]
    exact .pure _
  | array element | set element =>
    rw [ofNode, Node.errors_of_none rfl, Node.children, List.flatMap_singleton]
    exact (hchild element List.mem_cons_self).map _
  | record key value | map key value =>
    rw [ofNode, Node.errors_of_none rfl, Node.children, List.flatMap_cons, List.flatMap_singleton]
    refine (hchild key List.mem_cons_self).append fun _ => ?_
    exact (hchild value (List.mem_cons_of_mem _ List.mem_cons_self)).map _
  | object shape =>
    rw [ofNode, ofShape_eq_mapM, Node.errors_of_none rfl]
    exact (Stops.mapM_values hchild).map _
  | union first rest =>
    cases rest with
    | nil =>
      rw [ofNode, Node.errors_of_none rfl, Node.children, List.flatMap_singleton]
      exact hchild first List.mem_cons_self
    | cons second rest =>
      rw [ofNode_union]
      split
      · -- what is left of the union is emitted in its place
        rename_i content smaller hpresence
        rw [← Node.eq_of_presence
          (overlooks_dangling definitions).errors_withoutUndefined hpresence]
        exact (hpart content smaller).map _
      · rw [ofAll_eq_mapM, Node.errors_of_none rfl, Node.children, List.flatMap_cons]
        refine (hchild first List.mem_cons_self).append fun _ => ?_
        exact (Stops.mapM fun part hm => hchild part (List.mem_cons_of_mem _ hm)).map _
  | tuple first rest | intersection first rest =>
    rw [ofNode, ofAll_eq_mapM, Node.errors_of_none rfl, Node.children, List.flatMap_cons]
    refine (hchild first List.mem_cons_self).append fun _ => ?_
    exact (Stops.mapM fun part hm => hchild part (List.mem_cons_of_mem _ hm)).map _
  | function parameters returns =>
    rw [ofNode, ofAll_eq_mapM, Node.errors_of_none rfl, Node.children, List.flatMap_append]
    refine (Stops.mapM fun part hm => hchild part (List.mem_append_left _ hm)).append fun _ => ?_
    cases returns with
    | none =>
      rw [ofOption]
      exact .pure _
    | some result =>
      rw [ofOption, Option.toList_some, List.flatMap_singleton]
      exact ((hchild result (List.mem_append_right _ List.mem_cons_self)).map _).map _
  | reference =>
    rw [ofNode]
    exact .reference rfl
  termination_by sizeOf node

theorem emits_ofNode (node : Node) :
    Emits definitions False node.mentions (ofNode definitions node) :=
  .of_meets (stops_ofNode definitions node).meets fun _ _ h => .inl h

end Validator.Zod

/-! ## TypeBox -/

namespace Validator.TypeBox

/-- What TypeBox has no construct for. -/
def lack : Node → Option Feature
  | .primitive .bigint => some (.kind (.primitive .bigint))
  | .literal (.bigint _) => some .bigintLiteral
  | .set _ => some (.kind .set)
  | .map _ _ => some (.kind .map)
  | .tuple first rest =>
    if (first :: rest).any isOptionalUnion then some .optionalTupleElement else none
  | _ => none

theorem ofNode_union {definitions : DefinitionMap} (first second : Node) (rest : List Node) :
    ofNode definitions (.union first (second :: rest)) =
      return method "Union" [.array ((← ofNode definitions first) ::
        (← ofAll definitions (second :: rest)))] := by
  rw [ofNode]
  exact List.cons_ne_nil _ _

variable (definitions : DefinitionMap)

theorem overlooks_obstacle : Node.Overlooks (obstacle .typeBox lack definitions) :=
  ⟨fun _ _ => rfl, rfl⟩

theorem isOptional_of_isOptionalUnion {node : Node} (h : isOptionalUnion node = true) :
    node.isOptional = true := by
  unfold isOptionalUnion at h
  split at h
  · exact h
  · cases h

/-- A property is written as it stands, or as what is left of it, which has the same errors. -/
theorem meets_ofProperty {node : Node}
    (hpart : ∀ part, sizeOf part ≤ sizeOf node →
      Meets (part.errors (obstacle .typeBox lack definitions)) (ofNode definitions part)) :
    Meets (node.errors (obstacle .typeBox lack definitions)) (ofProperty definitions node) := by
  have hleft := (overlooks_obstacle definitions).errors_withoutUndefined
  rw [ofProperty]
  split
  · rename_i content smaller _ hpresence
    rw [← Node.eq_of_presence hleft hpresence]
    exact (hpart content (Nat.le_of_lt smaller)).map _
  · rename_i hunion hother
    -- an optional union of which something is left fills the place with that
    have hvacant : node.presence = .vacant := by
      rcases node.presence_cases with ⟨hrequired, -⟩ | ⟨-, -, hp⟩ | ⟨content, smaller, -, -, hp⟩
      · cases (isOptional_of_isOptionalUnion hunion).symm.trans hrequired
      · exact hp
      · exact (hother content smaller hp).elim
    rw [Node.eq_nil_of_vacant hleft hvacant]
    exact .pure _
  · exact hpart node (Nat.le_refl _)

/-- TypeBox fails for any of the errors, as it comes to a result before the parameters. -/
theorem meets_ofNode (node : Node) :
    Meets (node.errors (obstacle .typeBox lack definitions)) (ofNode definitions node) := by
  have hpart (part : Node) (hsmaller : sizeOf part < sizeOf node) :
      Meets (part.errors (obstacle .typeBox lack definitions)) (ofNode definitions part) :=
    meets_ofNode part
  have hchild (child : Node) (hc : child ∈ node.children) :=
    hpart child (Node.sizeOf_lt_of_mem_children hc)
  cases node with
  | primitive p =>
    rw [ofNode]
    cases p with
    | bigint =>
      rw [Node.errors_of_some rfl]
      exact .throw _
    | _ =>
      rw [Node.errors_of_none rfl]
      exact .pure _
  | literal value =>
    rw [ofNode]
    cases value with
    | bigint =>
      rw [Node.errors_of_some rfl]
      exact .throw _
    | _ =>
      rw [Node.errors_of_none rfl]
      exact .pure _
  | array element =>
    rw [ofNode, Node.errors_of_none rfl, Node.children, List.flatMap_singleton]
    exact (hchild element List.mem_cons_self).map _
  | set element | map key value =>
    -- what is inside is not looked at
    rw [ofNode, Node.errors_of_some rfl]
    exact .throw _
  | record key value =>
    rw [ofNode, Node.errors_of_none rfl, Node.children, List.flatMap_cons, List.flatMap_singleton]
    refine (hchild key List.mem_cons_self).append fun _ => ?_
    exact (hchild value (List.mem_cons_of_mem _ List.mem_cons_self)).map _
  | object shape =>
    rw [ofNode, ofShape_eq_mapM, Node.errors_of_none rfl]
    refine (Meets.mapM_values fun property hm => ?_).map _
    refine meets_ofProperty definitions fun part hle => hpart part ?_
    exact Nat.lt_of_le_of_lt hle (Node.sizeOf_lt_of_mem_children hm)
  | union first rest =>
    cases rest with
    | nil =>
      rw [ofNode, Node.errors_of_none rfl, Node.children, List.flatMap_singleton]
      exact hchild first List.mem_cons_self
    | cons second rest =>
      rw [ofNode_union, ofAll_eq_mapM, Node.errors_of_none rfl, Node.children, List.flatMap_cons]
      refine (hchild first List.mem_cons_self).append fun _ => ?_
      exact (Meets.mapM fun part hm => hchild part (List.mem_cons_of_mem _ hm)).map _
  | tuple first rest =>
    rw [ofNode, ofAll_eq_mapM, Node.errors_eq, obstacle, lack]
    split
    · exact .throw _
    · refine (hchild first List.mem_cons_self).append fun _ => ?_
      exact (Meets.mapM fun part hm => hchild part (List.mem_cons_of_mem _ hm)).map _
  | intersection first rest =>
    rw [ofNode, ofAll_eq_mapM, Node.errors_of_none rfl, Node.children, List.flatMap_cons]
    refine (hchild first List.mem_cons_self).append fun _ => ?_
    exact (Meets.mapM fun part hm => hchild part (List.mem_cons_of_mem _ hm)).map _
  | function parameters returns =>
    rw [ofNode, ofAll_eq_mapM, Node.errors_of_none rfl, Node.children, List.flatMap_append]
    have hparameters : Meets (parameters.flatMap (Node.errors (obstacle .typeBox lack definitions)))
        (parameters.mapM (ofNode definitions)) :=
      .mapM fun part hm => hchild part (List.mem_append_left _ hm)
    have hreturns :
        Meets (returns.toList.flatMap (Node.errors (obstacle .typeBox lack definitions)))
        (ofReturns definitions returns) := by
      cases returns with
      | none =>
        rw [ofReturns]
        exact .pure _
      | some result =>
        rw [ofReturns, Option.toList_some, List.flatMap_singleton]
        exact hchild result (List.mem_append_right _ List.mem_cons_self)
    -- what is returned is emitted before the parameters
    exact (hreturns.append fun _ => hparameters.map _).append_comm
  | reference =>
    rw [ofNode]
    refine Stops.meets ?_
    exact .reference rfl
  termination_by sizeOf node

theorem emits_ofNode (node : Node) :
    Emits definitions True node.mentions (ofNode definitions node) :=
  .of_meets (meets_ofNode definitions node) fun _ _ h =>
    (obstacle_cases h).imp_right fun ⟨feature, h⟩ => ⟨trivial, .typeBox, feature, h⟩

end Validator.TypeBox

/-! ## TypeScript -/

namespace TypeExpr

/-- TypeScript has no literals for numbers that are not finite. -/
def lack : Node → Option Feature
  | .literal (.number value) => if value.isFinite then none else some .nonFiniteNumber
  | _ => none

theorem ofNode_union {definitions : DefinitionMap} (first second : Node) (rest : List Node) :
    ofNode definitions (.union first (second :: rest)) =
      return union ((← ofNode definitions first) :: (← ofAll definitions (second :: rest))) := by
  rw [ofNode]
  exact List.cons_ne_nil _ _

variable (definitions : DefinitionMap)

theorem overlooks_obstacle : Node.Overlooks (obstacle .typeScript lack definitions) :=
  ⟨fun _ _ => rfl, rfl⟩

/-- A slot is filled with the node, or with what is left of it, which has the same errors. -/
theorem stops_ofSlot {node : Node}
    (hpart : ∀ part, sizeOf part ≤ sizeOf node →
      Stops (part.errors (obstacle .typeScript lack definitions)) (ofNode definitions part)) :
    Stops (node.errors (obstacle .typeScript lack definitions)) (ofSlot definitions node) := by
  have hleft := (overlooks_obstacle definitions).errors_withoutUndefined
  rw [ofSlot]
  split
  · rename_i content smaller hpresence
    rw [← Node.eq_of_presence hleft hpresence]
    exact (hpart content (Nat.le_of_lt smaller)).map _
  · rename_i hpresence
    rw [Node.eq_nil_of_vacant hleft hpresence]
    exact .pure _
  · exact (hpart node (Nat.le_refl _)).map _

/-- Every part of a node has a type, except for numbers that are not finite. -/
theorem stops_ofNode (node : Node) :
    Stops (node.errors (obstacle .typeScript lack definitions)) (ofNode definitions node) := by
  have hpart (part : Node) (hsmaller : sizeOf part < sizeOf node) :
      Stops (part.errors (obstacle .typeScript lack definitions)) (ofNode definitions part) :=
    stops_ofNode part
  have hchild (child : Node) (hc : child ∈ node.children) :=
    hpart child (Node.sizeOf_lt_of_mem_children hc)
  have hslot (slot : Node) (hc : slot ∈ node.children) :
      Stops (slot.errors (obstacle .typeScript lack definitions)) (ofSlot definitions slot) :=
    stops_ofSlot definitions fun part hle =>
      hpart part (Nat.lt_of_le_of_lt hle (Node.sizeOf_lt_of_mem_children hc))
  cases node with
  | primitive =>
    rw [ofNode, Node.errors_of_none rfl]
    exact .pure _
  | literal value =>
    rw [ofNode]
    cases value with
    | number value =>
      -- only a number that is not finite has no type
      rw [ofLiteral, Node.errors_eq, obstacle, lack]
      split
      · exact .pure _
      · exact .throw _
    | _ =>
      rw [Node.errors_of_none rfl]
      exact .pure _
  | array element | set element =>
    rw [ofNode, Node.errors_of_none rfl, Node.children, List.flatMap_singleton]
    exact (hchild element List.mem_cons_self).map _
  | record key value | map key value =>
    rw [ofNode, Node.errors_of_none rfl, Node.children, List.flatMap_cons, List.flatMap_singleton]
    refine (hchild key List.mem_cons_self).append fun _ => ?_
    exact (hchild value (List.mem_cons_of_mem _ List.mem_cons_self)).map _
  | object shape =>
    rw [ofNode, ofShape_eq_mapM, Node.errors_of_none rfl]
    exact (Stops.mapM_values hslot).map _
  | union first rest =>
    cases rest with
    | nil =>
      rw [ofNode, Node.errors_of_none rfl, Node.children, List.flatMap_singleton]
      exact hchild first List.mem_cons_self
    | cons second rest =>
      rw [ofNode_union, ofAll_eq_mapM, Node.errors_of_none rfl, Node.children, List.flatMap_cons]
      refine (hchild first List.mem_cons_self).append fun _ => ?_
      exact (Stops.mapM fun part hm => hchild part (List.mem_cons_of_mem _ hm)).map _
  | tuple first rest =>
    rw [ofNode, ofSlots_eq_mapM, Node.errors_of_none rfl, Node.children, List.flatMap_cons]
    refine (hslot first List.mem_cons_self).append fun _ => ?_
    exact (Stops.mapM fun part hm => hslot part (List.mem_cons_of_mem _ hm)).map _
  | intersection first rest =>
    rw [ofNode, ofAll_eq_mapM, Node.errors_of_none rfl, Node.children, List.flatMap_cons]
    refine (hchild first List.mem_cons_self).append fun _ => ?_
    exact (Stops.mapM fun part hm => hchild part (List.mem_cons_of_mem _ hm)).map _
  | function parameters returns =>
    rw [ofNode, ofAll_eq_mapM, Node.errors_of_none rfl, Node.children, List.flatMap_append]
    refine (Stops.mapM fun part hm => hchild part (List.mem_append_left _ hm)).append fun _ => ?_
    cases returns with
    | none =>
      rw [ofReturns]
      exact .pure _
    | some result =>
      rw [ofReturns, Option.toList_some, List.flatMap_singleton]
      exact (hchild result (List.mem_append_right _ List.mem_cons_self)).map _
  | reference =>
    rw [ofNode]
    exact .reference rfl
  termination_by sizeOf node

theorem emits_ofNode (node : Node) :
    Emits definitions True node.mentions (ofNode definitions node) :=
  .of_meets (stops_ofNode definitions node).meets fun _ _ h =>
    (obstacle_cases h).imp_right fun ⟨feature, h⟩ => ⟨trivial, .typeScript, feature, h⟩

end TypeExpr

end TypeGraph
