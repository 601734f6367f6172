import Mathlib.Data.List.Basic
import TypeGraph.Proofs.Emission.Faults

/-!
# Normal nodes

Schemas do not tell apart all ways of writing one type. `Node.normalize` is the way that a schema
stands for: a union with one member is its member, a union that admits `undefined` admits it once
and last, and a property name that comes twice counts once.

Main results:

* `Node.isOptional_normalize`: a normal node admits `undefined` if the node does.
* `Node.isOptional_rename`: renaming does not change what admits `undefined`.
-/

namespace TypeGraph

namespace Node

/-! ## Normalizing -/

mutual

/-- The node with every union in it written in one way. -/
def normalize (node : Node) : Node :=
  match node with
  | primitive p => primitive p
  | literal value => literal value
  | array element => array (normalize element)
  | set element => set (normalize element)
  | record key value => record (normalize key) (normalize value)
  | map key value => map (normalize key) (normalize value)
  | object shape => objectOf (normalizeShape shape)
  | union first [] => normalize first
  | union first (second :: rest) =>
    match (union first (second :: rest)).presence with
    | .optional content _ => union (normalize content) [undefined]
    | .vacant => undefined
    | .required => union (normalize first) (normalizeAll (second :: rest))
  | tuple first rest => tuple (normalize first) (normalizeAll rest)
  | intersection first rest => intersection (normalize first) (normalizeAll rest)
  | function parameters returns => function (normalizeAll parameters) (normalizeOption returns)
  | reference identifier displayName => reference identifier displayName
  termination_by sizeOf node
  decreasing_by
    all_goals simp at *
    all_goals omega

def normalizeShape (shape : List (String × Node)) : List (String × Node) :=
  match shape with
  | [] => []
  | (name, node) :: rest => (name, normalize node) :: normalizeShape rest
  termination_by sizeOf shape

def normalizeAll (nodes : List Node) : List Node :=
  match nodes with
  | [] => []
  | node :: rest => normalize node :: normalizeAll rest
  termination_by sizeOf nodes

def normalizeOption (node : Option Node) : Option Node :=
  match node with
  | none => none
  | some node => some (normalize node)
  termination_by sizeOf node

end

theorem normalizeShape_eq (shape : List (String × Node)) :
    normalizeShape shape = shape.map fun property => (property.1, property.2.normalize) :=
  eq_map (by rw [normalizeShape]) (fun _ _ => by rw [normalizeShape]) shape

theorem normalizeAll_eq (nodes : List Node) : normalizeAll nodes = nodes.map normalize :=
  eq_map (by rw [normalizeAll]) (fun _ _ => by rw [normalizeAll]) nodes

theorem normalizeOption_eq (node : Option Node) : normalizeOption node = node.map normalize := by
  cases node <;> rw [normalizeOption] <;> rfl

/-! ## Optional nodes -/

/-- A union of several members that admits `undefined` is what is left without it, and
`undefined`. -/
theorem normalize_union (first second : Node) (rest : List Node) :
    normalize (union first (second :: rest)) =
      if (union first (second :: rest)).isOptional then
        match (union first (second :: rest)).withoutUndefined with
        | none => undefined
        | some content => union content.normalize [undefined]
      else union first.normalize ((second :: rest).map normalize) := by
  rw [normalize, normalizeAll_eq]
  rcases presence_cases (union first (second :: rest)) with
    ⟨ho, hp⟩ | ⟨ho, hc, hp⟩ | ⟨content, _, ho, hc, hp⟩
  · rw [hp, ho]
    rfl
  · rw [hp, ho, hc]
    rfl
  · rw [hp, ho, hc]
    rfl

theorem anyOptional_eq (nodes : List Node) : anyOptional nodes = nodes.any isOptional := by
  induction nodes with
  | nil => rfl
  | cons node rest ih => rw [anyOptional, ih, List.any_cons]

theorem isOptional_union (first : Node) (rest : List Node) :
    (union first rest).isOptional = (first :: rest).any isOptional := by
  rw [isOptional, anyOptional_eq, List.any_cons]

/-- A union admits `undefined` as its members do. -/
theorem isOptional_union_map {f : Node → Node} {first : Node} {rest : List Node}
    (h : ∀ member ∈ first :: rest, (f member).isOptional = member.isOptional) :
    (union (f first) (rest.map f)).isOptional = (union first rest).isOptional := by
  rw [isOptional_union, isOptional_union, ← List.map_cons, List.any_map, Bool.eq_iff_iff,
    List.any_eq_true, List.any_eq_true]
  refine exists_congr fun member => and_congr_right fun hm => ?_
  rw [Function.comp_apply, h member hm]

theorem isOptional_of_unionOrSingle? {nodes : List Node} {node : Node}
    (h : unionOrSingle? nodes = some node) (hnodes : ∀ kept ∈ nodes, kept.isOptional = false) :
    node.isOptional = false := by
  match nodes, h with
  | [only], h =>
    cases h
    exact hnodes node List.mem_cons_self
  | first :: second :: rest, h =>
    cases h
    rw [isOptional_union, List.any_eq_false]
    exact fun kept hkept => Bool.not_eq_true _ ▸ hnodes kept hkept

/-- What is left of a node does not admit `undefined`. -/
theorem isOptional_of_withoutUndefined {node kept : Node} (h : node.withoutUndefined = some kept) :
    kept.isOptional = false := by
  induction node using inductionOnChildren generalizing kept with
  | step node ih =>
    cases node with
    | union first rest =>
      rw [withoutUndefined_union] at h
      split at h
      · -- what is left is made of what is left of the members
        refine isOptional_of_unionOrSingle? h fun part hm => ?_
        obtain ⟨member, hmember, hm⟩ := List.mem_flatMap.mp hm
        exact ih member hmember (Option.mem_toList.mp hm)
      · rename_i hoptional
        cases h
        exact Bool.not_eq_true _ ▸ hoptional
    | primitive kind => cases kind <;> simp [withoutUndefined] at h <;> subst h <;> rfl
    | _ =>
      cases h
      rfl

/-- A node that does not admit `undefined` is left as it is. -/
theorem withoutUndefined_of_required {node : Node} (h : node.isOptional = false) :
    node.withoutUndefined = some node := by
  cases node with
  | primitive kind => cases kind <;> first | rfl | cases h
  | union first rest =>
    rw [isOptional] at h
    rw [withoutUndefined, h]
    rfl
  | _ => rfl

/-- Normalizing keeps whether a node admits `undefined`. -/
theorem isOptional_normalize (node : Node) : node.normalize.isOptional = node.isOptional := by
  induction node using inductionOnChildren with
  | step node ih =>
    -- only unions are changed, and a union that is left optional keeps `undefined`
    cases node with
    | union first rest =>
      cases rest with
      | nil =>
        rw [normalize, ih first List.mem_cons_self, isOptional, anyOptional, Bool.or_false]
      | cons second rest =>
        rw [normalize_union]
        split
        · rename_i hoptional
          rw [hoptional]
          split
          · rfl
          · rw [isOptional_union, List.any_eq_true]
            exact ⟨undefined, by simp, rfl⟩
        · exact isOptional_union_map ih
    | primitive p => cases p <;> rw [normalize]
    | _ => rw [normalize] <;> rfl

/-! ## What occurs in what is left -/

theorem occurs_of_unionOrSingle? {nodes : List Node} {part node : Node} (hkind : part.kind ≠ .union)
    (h : unionOrSingle? nodes = some node) (ho : Occurs part node) :
    ∃ kept ∈ nodes, Occurs part kept := by
  match nodes, h with
  | [only], h =>
    cases h
    exact ⟨node, List.mem_cons_self, ho⟩
  | first :: second :: rest, h =>
    cases h
    rcases occurs_iff.mp ho with rfl | ho
    · exact absurd rfl hkind
    · exact ho

/-- Whatever occurs in what is left of a node, unions apart, occurs in the node. -/
theorem occurs_of_withoutUndefined {part : Node} (hkind : part.kind ≠ .union) {node kept : Node}
    (h : node.withoutUndefined = some kept) (ho : Occurs part kept) : Occurs part node := by
  induction node using inductionOnChildren generalizing kept with
  | step node ih =>
    cases node with
    | union first rest =>
      rw [withoutUndefined_union] at h
      split at h
      · -- what is left is one member or a union of several
        obtain ⟨left, hm, ho⟩ := occurs_of_unionOrSingle? hkind h ho
        obtain ⟨member, hmember, hm⟩ := List.mem_flatMap.mp hm
        exact .child hmember (ih member hmember (Option.mem_toList.mp hm) ho)
      · cases h
        exact ho
    | primitive kind => cases kind <;> simp [withoutUndefined] at h <;> subst h <;> exact ho
    | _ =>
      cases h
      exact ho

/-! ## Distinct property names -/

/-- No object in the node has a property name twice. -/
def DistinctNames (node : Node) : Prop :=
  ∀ shape, Occurs (.object shape) node → (shape.map Prod.fst).Nodup

theorem DistinctNames.child {node child : Node} (h : node.DistinctNames)
    (hc : child ∈ node.children) : child.DistinctNames :=
  fun shape ho => h shape (.child hc ho)

/-! ## Renaming -/

/-- The node with new identifiers in its references, the old ones being the display names. -/
def rename (names : String → String) : Node → Node :=
  substitute fun identifier => some (.reference (names identifier) (some identifier))

variable {names : String → String}

theorem rename_eq {node : Node} (h : node.kind ≠ .reference) :
    node.rename names = node.mapChildren (rename names) := substitute_eq _ h

theorem rename_reference (identifier : String) (displayName : Option String) :
    (reference identifier displayName).rename names =
      reference (names identifier) (some identifier) := rfl

@[simp] theorem rename_object (shape : List (String × Node)) :
    (object shape).rename names =
      object (shape.map fun property => (property.1, property.2.rename names)) :=
  rename_eq (show (object shape).kind ≠ .reference from Kind.noConfusion)

@[simp] theorem rename_union (first : Node) (rest : List Node) :
    (union first rest).rename names = union (first.rename names) (rest.map (rename names)) :=
  rename_eq (show (union first rest).kind ≠ .reference from Kind.noConfusion)

@[simp] theorem rename_tuple (first : Node) (rest : List Node) :
    (tuple first rest).rename names = tuple (first.rename names) (rest.map (rename names)) :=
  rename_eq (show (tuple first rest).kind ≠ .reference from Kind.noConfusion)

@[simp] theorem rename_intersection (first : Node) (rest : List Node) :
    (intersection first rest).rename names =
      intersection (first.rename names) (rest.map (rename names)) :=
  rename_eq (show (intersection first rest).kind ≠ .reference from Kind.noConfusion)

@[simp] theorem rename_function (parameters : List Node) (returns : Option Node) :
    (function parameters returns).rename names =
      function (parameters.map (rename names)) (returns.map (rename names)) :=
  rename_eq (show (function parameters returns).kind ≠ .reference from Kind.noConfusion)

theorem isOptional_rename (node : Node) : (node.rename names).isOptional = node.isOptional := by
  induction node using inductionOnChildren with
  | step node ih =>
    cases node with
    | union first rest =>
      rw [rename_union]
      exact isOptional_union_map ih
    | _ => rfl

end Node

end TypeGraph
