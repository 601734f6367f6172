import TypeGraph.Proofs.Node.Normal

/-!
# Leaves of unions

A union that stands directly in a union adds its members to it. `Node.leaves` lists what is left
when all such unions are opened: the ways in which a value can be of the type, in order. Whether a
node admits `undefined` is a question about its leaves, and so is what remains when that admission
is taken away or given.

Stripping keeps unions that have nothing to strip in them, drops those that nothing is left of and
puts the only remaining member in the place of its union; none of this shows in the leaves.

Main results:

* `Node.isOptional_iff_mem_leaves`: a node is optional if `undefined` is one of its leaves.
* `Node.leaves_of_withoutUndefined`: what is left of a node has its other leaves, in their order.
* `Node.optionality_laws`: all laws of `isOptional`, `withoutUndefined` and `optional` together.
-/

namespace TypeGraph.Node

/-! ## Leaves -/

mutual

/-- The node itself, or the leaves of its members if it is a union. -/
def leaves : Node → List Node
  | union first rest => leaves first ++ leavesOfAll rest
  | node => [node]

/-- The leaves of all nodes, one after the other. -/
def leavesOfAll : List Node → List Node
  | [] => []
  | node :: rest => leaves node ++ leavesOfAll rest

end

theorem leavesOfAll_eq (nodes : List Node) : leavesOfAll nodes = nodes.flatMap leaves :=
  eq_flatMap rfl (fun _ _ => by rw [leavesOfAll]) nodes

theorem leaves_union (first : Node) (rest : List Node) :
    (union first rest).leaves = (first :: rest).flatMap leaves := by
  rw [leaves, leavesOfAll_eq, List.flatMap_cons]

example : (union null [union undefined [unknown]]).leaves = [null, undefined, unknown] := rfl

theorem leaves_of_kind_ne {node : Node} (h : node.kind ≠ .union) : node.leaves = [node] := by
  cases node with
  | union => exact absurd rfl h
  | _ => rfl

theorem leaves_ne_nil (node : Node) : node.leaves ≠ [] := by
  induction node using inductionOnChildren with
  | step node ih =>
    cases node with
    | union first rest =>
      rw [leaves_union, List.flatMap_cons]
      exact List.append_ne_nil_of_left_ne_nil (ih first List.mem_cons_self) _
    | _ => exact List.cons_ne_nil _ _

/-- A leaf is opened: it is no union itself. -/
theorem kind_ne_of_mem_leaves {leaf node : Node} (h : leaf ∈ node.leaves) : leaf.kind ≠ .union := by
  induction node using inductionOnChildren with
  | step node ih =>
    by_cases hkind : node.kind = .union
    · cases node with
      | union first rest =>
        rw [leaves_union] at h
        obtain ⟨member, hm, hleaf⟩ := List.mem_flatMap.mp h
        exact ih member hm hleaf
      | _ => cases hkind
    · rw [leaves_of_kind_ne hkind, List.mem_singleton] at h
      exact h ▸ hkind

/-! ## Admitting `undefined` -/

/-- A node is optional if `undefined` is one of its leaves. -/
theorem isOptional_iff_mem_leaves (node : Node) :
    node.isOptional = true ↔ undefined ∈ node.leaves := by
  induction node using inductionOnChildren with
  | step node ih =>
    cases node with
    | union first rest =>
      rw [isOptional_union, leaves_union, List.any_eq_true, List.mem_flatMap]
      exact exists_congr fun member => and_congr_right fun hm => ih member hm
    | primitive kind => cases kind <;> simp [isOptional, leaves]
    | _ => simp [isOptional, leaves]

/-! ## Taking it away -/

/-- Whether the node is `undefined` and nothing else. -/
def isUndefined : Node → Bool
  | undefined => true
  | _ => false

theorem isUndefined_iff {node : Node} : node.isUndefined = true ↔ node = undefined := by
  cases node with
  | primitive kind => cases kind <;> simp [isUndefined]
  | _ => simp [isUndefined]

/-- The leaves of the node but for `undefined`, in order. -/
def definedLeaves (node : Node) : List Node := node.leaves.filter fun leaf => !leaf.isUndefined

theorem definedLeaves_eq_nil_iff {node : Node} :
    node.definedLeaves = [] ↔ ∀ leaf ∈ node.leaves, leaf = undefined := by
  simp only [definedLeaves, List.filter_eq_nil_iff, Bool.not_eq_true', Bool.not_eq_false,
    isUndefined_iff]

theorem definedLeaves_of_required {node : Node} (h : node.isOptional = false) :
    node.definedLeaves = node.leaves := by
  refine List.filter_eq_self.mpr fun leaf hleaf => ?_
  rw [Bool.not_eq_true', ← Bool.not_eq_true, isUndefined_iff]
  rintro rfl
  -- the leaf would make the node optional
  rw [← isOptional_iff_mem_leaves, h] at hleaf
  exact Bool.false_ne_true hleaf

/-- Stripping passes over unions as leaves do, and nothing is left of `undefined`. -/
theorem flatMap_definedLeaves (node : Node) :
    node.withoutUndefined.toList.flatMap definedLeaves = node.definedLeaves := by
  refine flatMap_withoutUndefined (fun first rest => ?_) rfl node
  rw [definedLeaves, leaves_union, List.filter_flatMap]
  rfl

/-- What is left of a node has its other leaves, in their order. -/
theorem leaves_of_withoutUndefined {node kept : Node} (h : node.withoutUndefined = some kept) :
    kept.leaves = node.definedLeaves := by
  rw [← flatMap_definedLeaves, h, Option.toList_some, List.flatMap_singleton,
    definedLeaves_of_required (isOptional_of_withoutUndefined h)]

/-- Nothing is left of a node exactly if it has no leaf but `undefined`. -/
theorem withoutUndefined_eq_none_iff (node : Node) :
    node.withoutUndefined = none ↔ ∀ leaf ∈ node.leaves, leaf = undefined := by
  rw [← definedLeaves_eq_nil_iff]
  constructor
  · intro h
    rw [← flatMap_definedLeaves, h]
    rfl
  · intro h
    -- if something were left, it would have leaves
    cases hkept : node.withoutUndefined with
    | none => rfl
    | some kept => exact absurd ((leaves_of_withoutUndefined hkept).trans h) kept.leaves_ne_nil

/-- A union in what is left of a node was there before, or has several members. -/
theorem union_of_withoutUndefined {node kept first : Node} {rest : List Node}
    (h : node.withoutUndefined = some kept) (ho : Occurs (union first rest) kept) :
    Occurs (union first rest) node ∨ rest ≠ [] := by
  induction node using inductionOnChildren generalizing kept with
  | step node ih =>
    cases hoptional : node.isOptional with
    | false =>
      rw [withoutUndefined_of_required hoptional] at h
      cases h
      exact .inl ho
    | true =>
      cases node with
      | union member others =>
        rw [withoutUndefined_union, if_pos hoptional] at h
        -- what is left of a member stands in what is left of the union
        have hmember {part : Node} (ho : Occurs (union first rest) part)
            (hpart : part ∈ (member :: others).flatMap fun member =>
              member.withoutUndefined.toList) :
            Occurs (union first rest) (union member others) ∨ rest ≠ [] := by
          obtain ⟨before, hbefore, hpart⟩ := List.mem_flatMap.mp hpart
          exact (ih before hbefore (Option.mem_toList.mp hpart) ho).imp_left (.child hbefore)
        generalize
          (member :: others).flatMap (fun member => member.withoutUndefined.toList) = left
          at h hmember
        match left, h with
        | [only], h =>
          cases h
          exact hmember ho List.mem_cons_self
        | first' :: second :: more, h =>
          cases h
          rcases occurs_iff.mp ho with heq | ⟨child, hc, ho⟩
          · -- the union that the members are put into
            cases heq
            exact .inr (List.cons_ne_nil _ _)
          · exact hmember ho hc
      | primitive kind =>
        cases kind with
        | undefined => cases h
        | _ => cases hoptional
      | _ => cases hoptional

/-! ## Giving it -/

theorem isOptional_optional (node : Node) : node.optional.isOptional = true := by
  unfold optional
  split
  · assumption
  · rw [isOptional_union, List.any_eq_true]
    exact ⟨undefined, by simp, rfl⟩

theorem optional_of_isOptional {node : Node} (h : node.isOptional = true) : node.optional = node :=
  if_pos h

theorem optional_of_required {node : Node} (h : node.isOptional = false) :
    node.optional = union node [undefined] := by
  rw [optional, h]
  rfl

/-- A node that is made optional has one leaf more, which comes last. -/
theorem leaves_optional {node : Node} (h : node.isOptional = false) :
    node.optional.leaves = node.leaves ++ [undefined] := by
  rw [optional_of_required h, leaves_union, List.flatMap_cons, List.flatMap_singleton]
  rfl

/-- What is given is what is taken away. -/
theorem withoutUndefined_optional (node : Node) :
    node.optional.withoutUndefined = node.withoutUndefined := by
  cases h : node.isOptional with
  | true => rw [optional_of_isOptional h]
  | false =>
    have hunion := isOptional_optional node
    rw [optional_of_required h] at hunion ⊢
    -- of the two members the first stays as it is, and nothing is left of the second
    rw [withoutUndefined_union, if_pos hunion, List.flatMap_cons, List.flatMap_singleton,
      withoutUndefined_of_required h]
    rfl

/-! ## All laws -/

/-- What taking `undefined` away leaves of a node that has other leaves. -/
structure Stripped (node kept : Node) : Prop where
  required : kept.isOptional = false
  leaves_eq : kept.leaves = node.leaves.filter fun leaf => !leaf.isUndefined
  /-- No union is without members, and a union that was not there before has several. -/
  members : ∀ part, Occurs part kept → part.kind = .union → part.children ≠ []
  collapsed : ∀ first rest, Occurs (union first rest) kept →
    Occurs (union first rest) node ∨ rest ≠ []
  unchanged : node.isOptional = false → kept = node

/-- How optionality goes by the leaves of a node. -/
structure OptionalByLeaves (node : Node) : Prop where
  /-- Leaves are opened: none of them is a union. -/
  opened : ∀ leaf ∈ node.leaves, leaf.kind ≠ .union
  isOptional_iff : node.isOptional = true ↔ undefined ∈ node.leaves
  none_iff : node.withoutUndefined = none ↔ ∀ leaf ∈ node.leaves, leaf = undefined
  kept : ∀ kept, node.withoutUndefined = some kept → Stripped node kept
  optional : node.optional.isOptional = true
  optional_self : node.isOptional = true → node.optional = node
  optional_leaves : node.isOptional = false → node.optional.leaves = node.leaves ++ [undefined]
  optional_optional : node.optional.optional = node.optional
  withoutUndefined_optional : node.optional.withoutUndefined = node.withoutUndefined

theorem stripped_of_withoutUndefined {node kept : Node} (h : node.withoutUndefined = some kept) :
    Stripped node kept where
  required := isOptional_of_withoutUndefined h
  leaves_eq := leaves_of_withoutUndefined h
  members part _ hkind := by
    cases part with
    | union first rest => exact List.cons_ne_nil _ _
    | _ => cases hkind
  collapsed _ _ := union_of_withoutUndefined h
  unchanged hrequired := by
    rw [withoutUndefined_of_required hrequired] at h
    exact (Option.some.inj h).symm

/-- The laws of optionality hold of every node. -/
theorem optionality_laws (node : Node) : OptionalByLeaves node where
  opened _ := kind_ne_of_mem_leaves
  isOptional_iff := isOptional_iff_mem_leaves node
  none_iff := withoutUndefined_eq_none_iff node
  kept _ := stripped_of_withoutUndefined
  optional := isOptional_optional node
  optional_self := optional_of_isOptional
  optional_leaves := leaves_optional
  optional_optional := optional_of_isOptional (isOptional_optional node)
  withoutUndefined_optional := withoutUndefined_optional node

end TypeGraph.Node
