import Mathlib.Data.List.Basic
import TypeGraph.Node.Optional
import TypeGraph.Node.References
import TypeGraph.Proofs.Lists

/-!
# Parts of nodes

`Node.Occurs` says that a node stands somewhere in another. It is what mentioning and substituting
are about: the identifiers that are mentioned are those of the references that occur
(`Node.mem_mentions_iff`), and what occurs after a substitution occurs in what was put in
(`Node.occurs_substitute_iff`). `Node.subnodes` lists what occurs, in order.

Both functions walk a node through functions for its lists of parts. `Node.mentions_eq` and
`Node.substitute_eq` put them in terms of `Node.children` and `Node.mapChildren`, so that later
proofs need one case for all nodes but references (`Node.inductionOnReferences`).

What unions have from their members, and `undefined` does not have, a node shares with what is left
of it without `undefined` (`Node.flatMap_withoutUndefined`, `Node.exists_withoutUndefined_iff`).
-/

namespace TypeGraph.Node

/-! ## Children -/

theorem kind_mapChildren (f : Node → Node) (node : Node) :
    (node.mapChildren f).kind = node.kind := by
  cases node <;> rfl

theorem children_mapChildren (f : Node → Node) (node : Node) :
    (node.mapChildren f).children = node.children.map f := by
  cases node with
  | object shape => simp [mapChildren, children, Function.comp_def]
  | function parameters returns => cases returns <;> simp [mapChildren, children]
  | _ => rfl

theorem mapChildren_id (node : Node) : (node.mapChildren fun child => child) = node := by
  cases node <;> simp [mapChildren]

theorem mapChildren_congr {f g : Node → Node} {node : Node}
    (h : ∀ child ∈ node.children, f child = g child) : node.mapChildren f = node.mapChildren g := by
  -- nodes with a fixed number of children, then those with lists of them
  cases node with
  | primitive | literal | reference => rfl
  | array element | set element => simp [mapChildren, h element (by simp [children])]
  | record key value | map key value =>
    simp [mapChildren, h key (by simp [children]), h value (by simp [children])]
  | object shape =>
    refine congrArg object (List.map_congr_left ?_)
    intro property hp
    rw [h property.2 (List.mem_map_of_mem hp)]
  | union first rest | tuple first rest | intersection first rest =>
    simp only [mapChildren, h first List.mem_cons_self,
      List.map_congr_left fun child hc => h child (List.mem_cons_of_mem _ hc)]
  | function parameters returns =>
    have hp := List.map_congr_left fun child hc => h child (List.mem_append_left _ hc)
    cases returns with
    | none => simp only [mapChildren, hp, Option.map_none]
    | some node =>
      simp only [mapChildren, hp, Option.map_some, h node (List.mem_append_right _ (by simp))]

/-- A node without what is inside: its kind, the value of a literal, the number of its parts and the
names of its properties in order. -/
def head (node : Node) : Node := node.mapChildren fun _ => .unknown

theorem kind_eq_of_head {node node' : Node} (h : node.head = node'.head) :
    node.kind = node'.kind := by
  have hkind := congrArg kind h
  rwa [head, head, kind_mapChildren, kind_mapChildren] at hkind

theorem head_mapChildren (f : Node → Node) (node : Node) :
    (node.mapChildren f).head = node.head := by
  cases node with
  | object shape => simp [head, mapChildren, Function.comp_def]
  | tuple first rest | intersection first rest | union first rest =>
    simp [head, mapChildren, Function.comp_def]
  | function parameters returns => cases returns <;> simp [head, mapChildren, Function.comp_def]
  | _ => rfl

/-! ## Mentions -/

theorem mentionsInAll_eq (nodes : List Node) : mentionsInAll nodes = nodes.flatMap mentions :=
  eq_flatMap rfl (fun _ _ => by rw [mentionsInAll]) nodes

theorem mentionsInShape_eq (shape : List (String × Node)) :
    mentionsInShape shape = (shape.map Prod.snd).flatMap mentions := by
  induction shape with
  | nil => rfl
  | cons property rest ih => rw [mentionsInShape, ih, List.map_cons, List.flatMap_cons]

/-- A node that is no reference mentions what its children mention. -/
theorem mentions_eq {node : Node} (h : node.kind ≠ .reference) :
    node.mentions = node.children.flatMap mentions := by
  cases node with
  | reference => exact absurd rfl h
  | object shape => exact mentionsInShape_eq shape
  | function parameters returns =>
    cases returns <;> simp [mentions, children, mentionsInAll_eq, mentionsInOption]
  | _ => simp [mentions, children, mentionsInAll_eq]

/-- A property of nodes holds if references have it, and if every other node has it where its
children do. -/
theorem inductionOnReferences {motive : Node → Prop}
    (reference : ∀ identifier displayName, motive (.reference identifier displayName))
    (parts : ∀ node, node.kind ≠ .reference → (∀ child ∈ node.children, motive child) → motive node)
    (node : Node) : motive node := by
  induction node using inductionOnChildren with
  | step node ih =>
    by_cases hkind : node.kind = .reference
    · cases node with
      | reference identifier displayName => exact reference identifier displayName
      | _ => cases hkind
    · exact parts node hkind ih

/-! ## Substitution -/

theorem substituteInAll_eq (replacement : String → Option Node) (nodes : List Node) :
    substituteInAll replacement nodes = nodes.map (substitute replacement) :=
  eq_map rfl (fun _ _ => by rw [substituteInAll]) nodes

theorem substituteInShape_eq (replacement : String → Option Node) (shape : List (String × Node)) :
    substituteInShape replacement shape =
      shape.map fun property => (property.1, substitute replacement property.2) :=
  eq_map rfl (fun _ _ => by rw [substituteInShape]) shape

/-- In a node that is no reference, substitution goes on to the children. -/
theorem substitute_eq (replacement : String → Option Node) {node : Node}
    (h : node.kind ≠ .reference) :
    node.substitute replacement = node.mapChildren (substitute replacement) := by
  cases node with
  | reference => exact absurd rfl h
  | object shape => rw [substitute, substituteInShape_eq, mapChildren]
  | function parameters returns =>
    cases returns <;> simp [substitute, substituteInAll_eq, mapChildren, substituteInOption]
  | _ => simp [substitute, substituteInAll_eq, mapChildren]

/-- Only what is put in the place of mentioned identifiers matters. -/
theorem substitute_congr {replacement other : String → Option Node} {node : Node}
    (h : ∀ identifier ∈ node.mentions, replacement identifier = other identifier) :
    node.substitute replacement = node.substitute other := by
  -- references are replaced; all other nodes pass the question on to their children
  induction node using inductionOnReferences with
  | reference identifier displayName => simp only [substitute, h identifier List.mem_cons_self]
  | parts node hk ih =>
    rw [substitute_eq _ hk, substitute_eq _ hk]
    refine mapChildren_congr fun child hc => ih child hc fun identifier hi => ?_
    exact h identifier (by rw [mentions_eq hk]; exact List.mem_flatMap.mpr ⟨child, hc, hi⟩)

/-! ## Occurrence -/

/-- A node stands somewhere in another, or is the other. -/
inductive Occurs (part : Node) : Node → Prop where
  | self : Occurs part part
  | child {child node : Node} (mem : child ∈ node.children) (occurs : Occurs part child) :
      Occurs part node

theorem occurs_iff {part node : Node} :
    Occurs part node ↔ part = node ∨ ∃ child ∈ node.children, Occurs part child := by
  constructor
  · rintro (_ | ⟨hm, ho⟩)
    · exact .inl rfl
    · exact .inr ⟨_, hm, ho⟩
  · rintro (rfl | ⟨child, hm, ho⟩)
    · exact .self
    · exact .child hm ho

theorem Occurs.trans {part middle node : Node} (h : Occurs part middle) (h' : Occurs middle node) :
    Occurs part node := by
  induction h' with
  | self => exact h
  | child mem _ ih => exact .child mem ih

theorem occurs_reference_iff {part : Node} {identifier : String} {displayName : Option String} :
    Occurs part (.reference identifier displayName) ↔ part = .reference identifier displayName := by
  rw [occurs_iff, or_iff_left]
  rintro ⟨child, hm, -⟩
  exact absurd hm List.not_mem_nil

/-- A reference in a node that is none itself occurs in a child. -/
theorem occurs_iff_of_kind {node : Node} (h : node.kind ≠ .reference) {identifier : String}
    {displayName : Option String} :
    Occurs (.reference identifier displayName) node ↔
      ∃ child ∈ node.children, Occurs (.reference identifier displayName) child := by
  rw [occurs_iff, or_iff_right]
  rintro rfl
  exact h rfl

theorem mem_mentions_iff {node : Node} {identifier : String} :
    identifier ∈ node.mentions ↔
      ∃ displayName, Occurs (.reference identifier displayName) node := by
  -- induction on the node: what is mentioned is mentioned in a child
  induction node using inductionOnReferences with
  | reference other displayName => simp [mentions, occurs_reference_iff]
  | parts node hk ih =>
    rw [mentions_eq hk, List.mem_flatMap]
    constructor
    · rintro ⟨child, hc, hi⟩
      obtain ⟨displayName, ho⟩ := (ih child hc).mp hi
      exact ⟨displayName, .child hc ho⟩
    · rintro ⟨displayName, ho⟩
      obtain ⟨child, hc, ho⟩ := (occurs_iff_of_kind hk).mp ho
      exact ⟨child, hc, (ih child hc).mpr ⟨displayName, ho⟩⟩

theorem Occurs.mentions_subset {part node : Node} (h : Occurs part node) :
    part.mentions ⊆ node.mentions := by
  intro identifier hi
  obtain ⟨displayName, ho⟩ := mem_mentions_iff.mp hi
  exact mem_mentions_iff.mpr ⟨displayName, ho.trans h⟩

/-- The nodes that stand in a node, in order: the node itself, and then those that stand in its
children. -/
def subnodes (node : Node) : List Node :=
  node :: node.children.attach.flatMap fun child => subnodes child.1
  termination_by sizeOf node
  decreasing_by exact sizeOf_lt_of_mem_children child.2

theorem subnodes_eq (node : Node) : node.subnodes = node :: node.children.flatMap subnodes := by
  rw [subnodes, List.flatMap_subtype (fun _ _ => rfl), List.unattach_attach]

theorem mem_subnodes_iff {part node : Node} : part ∈ node.subnodes ↔ Occurs part node := by
  induction node using inductionOnChildren with
  | step node ih =>
    rw [subnodes_eq, List.mem_cons, List.mem_flatMap, occurs_iff]
    exact or_congr_right (exists_congr fun child => and_congr_right fun hc => ih child hc)

/-- The references after a substitution are those of what was put in for a reference, or left. -/
theorem occurs_substitute_iff {replacement : String → Option Node} {node : Node}
    {identifier : String} {displayName : Option String} :
    Occurs (.reference identifier displayName) (node.substitute replacement) ↔
      ∃ other name, Occurs (.reference other name) node ∧
        Occurs (.reference identifier displayName)
          ((replacement other).getD (.reference other name)) := by
  induction node using inductionOnReferences with
  | reference other name =>
    constructor
    · exact fun ho => ⟨other, name, .self, ho⟩
    · rintro ⟨_, _, hother, ho⟩
      cases occurs_reference_iff.mp hother
      exact ho
  | parts node hk ih =>
    -- a substitution leaves the kind, so what occurs occurs in a child
    have hk' : (node.mapChildren (substitute replacement)).kind ≠ .reference := by
      rwa [kind_mapChildren]
    rw [substitute_eq _ hk, occurs_iff_of_kind hk', children_mapChildren]
    constructor
    · rintro ⟨_, hmem, ho⟩
      obtain ⟨child, hc, rfl⟩ := List.mem_map.mp hmem
      obtain ⟨other, name, hother, ho⟩ := (ih child hc).mp ho
      exact ⟨other, name, .child hc hother, ho⟩
    · rintro ⟨other, name, hother, ho⟩
      obtain ⟨child, hc, hother⟩ := (occurs_iff_of_kind hk).mp hother
      exact ⟨_, List.mem_map_of_mem hc, (ih child hc).mpr ⟨other, name, hother, ho⟩⟩

/-! ## What is left of optional nodes -/

theorem sizeOf_lt_of_withoutUndefined {node content : Node} (hoptional : node.isOptional = true)
    (hcontent : node.withoutUndefined = some content) : sizeOf content < sizeOf node := by
  have hle := sizeOf_withoutUndefined_le hcontent
  rw [hoptional, Bool.toNat_true] at hle
  omega

/-- How a place reads a node goes by what is left of the node. -/
theorem presence_cases (node : Node) :
    (node.isOptional = false ∧ node.presence = .required) ∨
      (node.isOptional = true ∧ node.withoutUndefined = none ∧ node.presence = .vacant) ∨
      ∃ content smaller, node.isOptional = true ∧ node.withoutUndefined = some content ∧
        node.presence = .optional content smaller := by
  unfold presence
  split
  · rename_i hoptional
    split
    · rename_i hcontent
      exact .inr (.inl ⟨hoptional, hcontent, rfl⟩)
    · rename_i content hcontent
      have hsmaller := sizeOf_lt_of_withoutUndefined hoptional hcontent
      exact .inr (.inr ⟨content, hsmaller, hoptional, hcontent, rfl⟩)
  · rename_i hoptional
    exact .inl ⟨Bool.not_eq_true _ ▸ hoptional, rfl⟩

section

variable {β : Type} {f : Node → List β}

theorem flatMap_unionOrSingle
    (hunion : ∀ first rest, f (union first rest) = (first :: rest).flatMap f) (nodes : List Node) :
    (unionOrSingle? nodes).toList.flatMap f = nodes.flatMap f := by
  match nodes with
  | [] => rfl
  | [only] => rfl
  | first :: second :: rest => simpa [unionOrSingle?] using hunion first (second :: rest)

theorem allWithoutUndefined_eq (nodes : List Node) :
    allWithoutUndefined nodes = nodes.flatMap fun node => node.withoutUndefined.toList :=
  eq_flatMap rfl (fun _ _ => by rw [allWithoutUndefined]) nodes

/-- An optional union is left with what is left of its members. -/
theorem withoutUndefined_union (first : Node) (rest : List Node) :
    (union first rest).withoutUndefined =
      if (union first rest).isOptional then
        unionOrSingle? ((first :: rest).flatMap fun member => member.withoutUndefined.toList)
      else some (union first rest) := by
  rw [← allWithoutUndefined_eq]
  rfl

/-- What a union has as its members have it, one after the other, what is left of a node has as the
node. -/
theorem flatMap_withoutUndefined
    (hunion : ∀ first rest, f (union first rest) = (first :: rest).flatMap f)
    (hundefined : f undefined = []) (node : Node) :
    node.withoutUndefined.toList.flatMap f = f node := by
  induction node using inductionOnChildren with
  | step node ih =>
    cases node with
    | union first rest =>
      rw [withoutUndefined_union]
      split
      · rw [flatMap_unionOrSingle hunion, List.flatMap_assoc, hunion]
        exact List.flatMap_congr ih
      · exact List.flatMap_singleton ..
    | primitive kind => cases kind <;> simp [withoutUndefined, hundefined]
    | _ => exact List.flatMap_singleton ..

variable {P : Node → Prop}

theorem exists_unionOrSingle_iff
    (hunion : ∀ first rest, P (union first rest) ↔ ∃ member ∈ first :: rest, P member)
    (nodes : List Node) :
    (∃ kept, unionOrSingle? nodes = some kept ∧ P kept) ↔ ∃ member ∈ nodes, P member := by
  match nodes with
  | [] => simp [unionOrSingle?]
  | [only] => simp [unionOrSingle?]
  | first :: second :: rest => simp [unionOrSingle?, hunion]

/-- What holds of a union if it holds of a member holds of what is left of a node if it holds of the
node. -/
theorem exists_withoutUndefined_iff
    (hunion : ∀ first rest, P (union first rest) ↔ ∃ member ∈ first :: rest, P member)
    (hundefined : ¬ P undefined) (node : Node) :
    (∃ kept, node.withoutUndefined = some kept ∧ P kept) ↔ P node := by
  -- only a union can be more than what is left of it, and what is left are the members without
  -- theirs
  induction node using inductionOnChildren with
  | step node ih =>
    cases node with
    | union first rest =>
      rw [withoutUndefined_union]
      split
      · rw [exists_unionOrSingle_iff hunion, hunion]
        constructor
        · rintro ⟨kept, hkept, hp⟩
          obtain ⟨member, hm, hkept⟩ := List.mem_flatMap.mp hkept
          exact ⟨member, hm, (ih member hm).mp ⟨kept, Option.mem_toList.mp hkept, hp⟩⟩
        · rintro ⟨member, hm, hp⟩
          obtain ⟨kept, hkept, hp⟩ := (ih member hm).mpr hp
          exact ⟨kept, List.mem_flatMap.mpr ⟨member, hm, Option.mem_toList.mpr hkept⟩, hp⟩
      · simp
    | primitive kind => cases kind <;> simp [withoutUndefined, hundefined]
    | _ => simp [withoutUndefined]

end

end TypeGraph.Node
