import TypeGraph.Node.Basic

/-!
# Optionality

There is no optional type: a node is optional if it admits `undefined`, as `undefined` itself or
through a union. `Node.withoutUndefined` takes that admission away. `Node.presence` is how places
that can be left empty, properties and tuple slots, read the node that stands in them.
-/

namespace TypeGraph.Node

mutual

/-- Whether the node is `undefined` or a union with an optional member. -/
def isOptional : Node → Bool
  | undefined => true
  | union first rest => isOptional first || anyOptional rest
  | _ => false

/-- Whether one of the nodes is optional. -/
def anyOptional : List Node → Bool
  | [] => false
  | node :: rest => isOptional node || anyOptional rest

end

/-- Admits `undefined` beside the node, unless the node is optional already. -/
def optional (node : Node) : Node :=
  if node.isOptional then node else union node [undefined]

/-- Members as one node: none for no member, the member itself for one, else their union. -/
def unionOrSingle? : List Node → Option Node
  | [] => none
  | [only] => some only
  | first :: second :: rest => some (union first (second :: rest))

mutual

/-- The node with its optional members removed, through all unions directly in unions; `none` if
nothing is left. A single remaining member loses the union around it. -/
def withoutUndefined : Node → Option Node
  | undefined => none
  | union first rest =>
    if isOptional first || anyOptional rest then
      unionOrSingle? ((withoutUndefined first).toList ++ allWithoutUndefined rest)
    else some (union first rest)
  | node => some node

/-- What is left of each of the nodes. -/
def allWithoutUndefined : List Node → List Node
  | [] => []
  | node :: rest => (withoutUndefined node).toList ++ allWithoutUndefined rest

end

/-! ## Presence

What is left of an optional node is smaller than the node, so a walk may go on with it. -/

theorem sizeOf_le_of_unionOrSingle? {nodes : List Node} {node : Node}
    (h : unionOrSingle? nodes = some node) : sizeOf node ≤ sizeOf nodes := by
  match nodes, h with
  | [only], h => simp [unionOrSingle?] at h; subst h; simp; omega
  | first :: second :: rest, h => simp [unionOrSingle?] at h; subst h; simp

mutual

theorem sizeOf_withoutUndefined_le : ∀ {node kept : Node}, withoutUndefined node = some kept →
    sizeOf kept + (isOptional node).toNat ≤ sizeOf node
  | union first rest, kept, h => by
    by_cases ho : (isOptional first || anyOptional rest) = true
    · have hk : unionOrSingle? ((withoutUndefined first).toList ++ allWithoutUndefined rest) =
          some kept := by simpa [withoutUndefined, ho] using h
      -- what is left is no larger than the list of what is left of the members
      have hsize := sizeOf_le_of_unionOrSingle? hk
      have hrest := sizeOf_allWithoutUndefined_le rest
      cases hf : withoutUndefined first with
      | none =>
        simp only [hf, Option.toList_none, List.nil_append] at hsize
        simp [isOptional, ho]
        omega
      | some first' =>
        have hfirst := sizeOf_withoutUndefined_le hf
        simp only [hf, Option.toList_some, List.singleton_append, List.cons.sizeOf_spec] at hsize
        simp only [isOptional, ho, union.sizeOf_spec, Bool.toNat_true]
        -- the optional member has taken at least one away, on whichever side it stands
        rcases Bool.or_eq_true _ _ ▸ ho with h | h <;> simp only [h, Bool.toNat_true] at * <;> omega
    · obtain rfl : union first rest = kept := by simpa [withoutUndefined, ho] using h
      simp [isOptional, ho]
  | primitive p, kept, h => by
    cases p <;> simp [withoutUndefined, isOptional] at h ⊢ <;> subst h <;> simp
  | literal _, kept, h | array _, kept, h | set _, kept, h | record _ _, kept, h
  | map _ _, kept, h | object _, kept, h | tuple _ _, kept, h | intersection _ _, kept, h
  | function _ _, kept, h | reference _ _, kept, h => by
    simp [withoutUndefined, isOptional] at h ⊢
    subst h
    simp

theorem sizeOf_allWithoutUndefined_le : ∀ nodes : List Node,
    sizeOf (allWithoutUndefined nodes) + (anyOptional nodes).toNat ≤ sizeOf nodes
  | [] => by simp [allWithoutUndefined, anyOptional]
  | node :: rest => by
    have hrest := sizeOf_allWithoutUndefined_le rest
    cases hn : withoutUndefined node with
    | none =>
      have := Bool.toNat_le (isOptional node || anyOptional rest)
      simp [allWithoutUndefined, anyOptional, hn]
      omega
    | some kept =>
      have hnode := sizeOf_withoutUndefined_le hn
      have : (isOptional node || anyOptional rest).toNat ≤
          (isOptional node).toNat + (anyOptional rest).toNat := by
        cases isOptional node <;> cases anyOptional rest <;> simp
      simp [allWithoutUndefined, anyOptional, hn]
      omega

end

/-- How a place that can be left empty reads the node that stands in it. -/
inductive Presence (node : Node) where
  /-- The place must be filled. -/
  | required
  /-- The place may be empty, and nothing but `undefined` fills it. -/
  | vacant
  /-- The place may be empty; `content` is what fills it. -/
  | optional (content : Node) (smaller : sizeOf content < sizeOf node)

/-- How a place that can be left empty reads the node. -/
def presence (node : Node) : Presence node :=
  if ho : node.isOptional then
    match hc : node.withoutUndefined with
    | none => .vacant
    | some content =>
      .optional content (by have := sizeOf_withoutUndefined_le hc; simp [ho] at this; omega)
  else .required

end TypeGraph.Node
