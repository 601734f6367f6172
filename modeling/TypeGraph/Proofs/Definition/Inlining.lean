import TypeGraph.Proofs.Definition.Reach

/-!
# Inlining acyclic definitions

`DefinitionMap.expand` puts definitions into definitions to a bounded depth. The bound is never met
(`expand_eq`), since no chain of acyclic definitions is longer than there are definitions, so that
inlining is its own continuation: a reference to an acyclic definition becomes its inlined body.

An extraction stays closed and keeps its definitions in reach while it is inlined.
-/

namespace TypeGraph

open Relation

/-! ## Closed extractions -/

/-- Every reference in the node names a definition and carries its label. -/
def DefinitionMap.Closes (definitions : DefinitionMap) (node : Node) : Prop :=
  ∀ identifier displayName, Node.Occurs (.reference identifier displayName) node →
    ∃ definition, definitions.get? identifier = some definition ∧ definition.label = displayName

theorem DefinitionMap.Closes.mem_keys {definitions : DefinitionMap} {node : Node}
    (h : definitions.Closes node) :
    ∀ identifier ∈ node.mentions, identifier ∈ definitions.keys := by
  intro identifier hi
  obtain ⟨displayName, ho⟩ := Node.mem_mentions_iff.mp hi
  obtain ⟨definition, hd, -⟩ := h identifier displayName ho
  exact OrderedMap.mem_keys_iff.mpr ⟨definition, hd⟩

namespace Extraction

/-- Every reference in the root or in the body of a definition names a definition and carries its
label. -/
structure Closed (extraction : Extraction) : Prop where
  root : extraction.definitions.Closes extraction.root
  bodies : ∀ identifier definition, extraction.definitions.get? identifier = some definition →
    extraction.definitions.Closes definition.node

/-- Every definition can be reached from the root through references. -/
def Connected (extraction : Extraction) : Prop :=
  ∀ identifier ∈ extraction.definitions.keys, ∃ first ∈ extraction.root.mentions,
    ReflTransGen extraction.definitions.Refers first identifier

end Extraction

namespace DefinitionMap

variable {definitions : DefinitionMap}

/-! ## The bound on the depth -/

theorem expand_succ (depth : Nat) (identifier : String) :
    definitions.expand (depth + 1) identifier =
      if definitions.isCyclic identifier then none
      else (definitions.node? identifier).map (Node.substitute (definitions.expand depth)) := rfl

theorem expand_eq_none {depth : Nat} {identifier : String}
    (h : ¬ definitions.Acyclic identifier) : definitions.expand depth identifier = none := by
  cases depth with
  | zero => rfl
  | succ depth =>
    rw [expand_succ]
    split
    · rfl
    · rename_i hcyclic
      rw [Option.map_eq_none_iff, ← Option.not_isSome_iff_eq_none, node?_isSome_iff]
      exact fun hmem => h ⟨hmem, by simpa using hcyclic⟩

/-- Where one more level makes a difference, there is a chain as long as the bound. -/
theorem exists_chain_of_expand_ne {depth : Nat} {identifier : String}
    (h : definitions.expand depth identifier ≠ definitions.expand (depth + 1) identifier) :
    ∃ path,
      (identifier :: path).IsChain (fun i j => definitions.Acyclic i ∧ definitions.Refers i j) ∧
      identifier :: path ⊆ definitions.keys ∧ path.length = depth := by
  -- what is cyclic or missing is not expanded at any depth
  have hacyclic : definitions.Acyclic identifier := by
    by_contra hnot
    exact h ((expand_eq_none hnot).trans (expand_eq_none hnot).symm)
  induction depth generalizing identifier with
  | zero =>
    exact ⟨[], .singleton _, List.cons_subset.mpr ⟨hacyclic.1, List.nil_subset _⟩, rfl⟩
  | succ depth ih =>
    rw [expand_succ, expand_succ, if_neg (by simp [hacyclic.2]), if_neg (by simp [hacyclic.2])] at h
    cases hnode : definitions.node? identifier with
    | none =>
      rw [hnode] at h
      exact absurd rfl h
    | some body =>
      -- the difference is in what is put in for an identifier that the body mentions
      have hmention : ∃ other ∈ body.mentions,
          definitions.expand depth other ≠ definitions.expand (depth + 1) other := by
        by_contra hnone
        refine h ?_
        rw [hnode, Option.map_some, Option.map_some, Node.substitute_congr]
        exact fun other hother => Classical.not_not.mp fun hne => hnone ⟨other, hother, hne⟩
      obtain ⟨other, hother, hne⟩ := hmention
      have hother' : definitions.Acyclic other := by
        by_contra hnot
        exact hne ((expand_eq_none hnot).trans (expand_eq_none hnot).symm)
      obtain ⟨path, hpath, hsub, hlength⟩ := ih hne hother'
      have hrefers : definitions.Refers identifier other := refers_iff.mpr ⟨body, hnode, hother⟩
      refine ⟨other :: path, hpath.cons_cons ⟨hacyclic, hrefers⟩,
        List.cons_subset.mpr ⟨hacyclic.1, hsub⟩, ?_⟩
      rw [List.length_cons, hlength]

/-- What stands for an identifier is its inlined body, if it is acyclic. -/
theorem expand_eq (identifier : String) :
    definitions.expand definitions.size identifier =
      if definitions.isCyclic identifier then none
      else (definitions.node? identifier).map definitions.inlineInto := by
  change definitions.expand definitions.size identifier =
    definitions.expand (definitions.size + 1) identifier
  -- a difference would come with a chain of acyclic definitions that comes back
  by_contra hne
  obtain ⟨path, hpath, hsub, hlength⟩ := exists_chain_of_expand_ne hne
  have hfew : definitions.keys.length ≤ path.length := by rw [OrderedMap.length_keys, hlength]
  obtain ⟨other, -, hloop⟩ := comesBack_of_subset hpath hsub hfew
  obtain ⟨_, hstep, -⟩ := TransGen.head'_iff.mp hloop
  have hcyclic := isCyclic_iff.mpr (hloop.lift id fun _ _ hstep => hstep.2)
  rw [id, hstep.1.2] at hcyclic
  exact Bool.false_ne_true hcyclic

/-! ## Inlined nodes -/

theorem expand_of_acyclic {identifier : String} (h : definitions.Acyclic identifier) :
    ∃ body, definitions.node? identifier = some body ∧
      definitions.expand definitions.size identifier = some (definitions.inlineInto body) := by
  obtain ⟨body, hbody⟩ := Option.isSome_iff_exists.mp (node?_isSome_iff.mpr h.1)
  refine ⟨body, hbody, ?_⟩
  rw [expand_eq, if_neg (by simp [h.2]), hbody]
  rfl

/-- A reference to an acyclic definition becomes its inlined body. -/
theorem inlineInto_reference {identifier : String} {displayName : Option String} {body : Node}
    (h : definitions.Acyclic identifier) (hbody : definitions.node? identifier = some body) :
    definitions.inlineInto (.reference identifier displayName) = definitions.inlineInto body := by
  obtain ⟨body', hbody', hexpand⟩ := expand_of_acyclic h
  rw [hbody, Option.some.injEq] at hbody'
  rw [inlineInto, Node.substitute, hexpand, Option.getD_some, hbody']

/-- All other references stay. -/
theorem inlineInto_reference_of_not {identifier : String} {displayName : Option String}
    (h : ¬ definitions.Acyclic identifier) :
    definitions.inlineInto (.reference identifier displayName) =
      .reference identifier displayName := by
  rw [inlineInto, Node.substitute, expand_eq_none h, Option.getD_none]

theorem occurs_inlineInto_iff {node : Node} {identifier : String} {displayName : Option String} :
    Node.Occurs (.reference identifier displayName) (definitions.inlineInto node) ↔
      ∃ other name, Node.Occurs (.reference other name) node ∧
        Node.Occurs (.reference identifier displayName)
          (definitions.inlineInto (.reference other name)) :=
  Node.occurs_substitute_iff

/-- No acyclic definition is referred to any more, and every reference was there before, in the node
or in the body of a definition. -/
theorem occurs_of_inlineInto {node : Node} {identifier : String} {displayName : Option String}
    (h : Node.Occurs (.reference identifier displayName) (definitions.inlineInto node)) :
    ¬ definitions.Acyclic identifier ∧
      (Node.Occurs (.reference identifier displayName) node ∨
        ∃ other body, definitions.node? other = some body ∧
          Node.Occurs (.reference identifier displayName) body) := by
  -- from the references of a node to the node itself
  have hstep {node : Node}
      (ih : ∀ other name, Node.Occurs (.reference other name) node → definitions.Acyclic other →
        ∀ body, definitions.node? other = some body →
          Node.Occurs (.reference identifier displayName) (definitions.inlineInto body) →
          ¬ definitions.Acyclic identifier ∧ ∃ other body, definitions.node? other = some body ∧
            Node.Occurs (.reference identifier displayName) body)
      (h : Node.Occurs (.reference identifier displayName) (definitions.inlineInto node)) :
      ¬ definitions.Acyclic identifier ∧
        (Node.Occurs (.reference identifier displayName) node ∨
          ∃ other body, definitions.node? other = some body ∧
            Node.Occurs (.reference identifier displayName) body) := by
    obtain ⟨other, name, hother, ho⟩ := occurs_inlineInto_iff.mp h
    by_cases hacyclic : definitions.Acyclic other
    · obtain ⟨body, hbody, -⟩ := expand_of_acyclic hacyclic
      rw [inlineInto_reference hacyclic hbody] at ho
      exact (ih other name hother hacyclic body hbody ho).imp id .inr
    · rw [inlineInto_reference_of_not hacyclic] at ho
      cases Node.occurs_reference_iff.mp ho
      exact ⟨hacyclic, .inl hother⟩
  -- inside of bodies, by induction over the acyclic definitions
  refine hstep ?_ h
  intro other _ _ hacyclic
  refine inductionOnAcyclic ?_ hacyclic
  intro other _ ih body hbody ho
  have hrefers {next : String} {name : Option String}
      (hnext : Node.Occurs (.reference next name) body) : definitions.Refers other next :=
    refers_iff.mpr ⟨body, hbody, Node.mem_mentions_iff.mpr ⟨name, hnext⟩⟩
  obtain ⟨hnot, hin⟩ := hstep (fun next name hnext => ih next (hrefers hnext)) ho
  exact ⟨hnot, hin.elim (fun ho => ⟨other, body, hbody, ho⟩) id⟩

/-! ## Inlined extractions -/

theorem get?_inlineAcyclic (root : Node) (identifier : String) :
    (definitions.inlineAcyclic root).definitions.get? identifier =
      if definitions.isCyclic identifier then
        (definitions.get? identifier).map fun definition =>
          { definition with node := definitions.inlineInto definition.node }
      else none := by
  rw [inlineAcyclic, OrderedMap.get?_mapValues, OrderedMap.get?_filterKeys]
  split <;> rfl

theorem node?_inlineAcyclic (root : Node) (identifier : String) :
    (definitions.inlineAcyclic root).definitions.node? identifier =
      if definitions.isCyclic identifier then
        (definitions.node? identifier).map definitions.inlineInto
      else none := by
  rw [node?, get?_inlineAcyclic, node?]
  split
  · simp [Function.comp_def]
  · rfl

theorem keys_inlineAcyclic (root : Node) :
    (definitions.inlineAcyclic root).definitions.keys = definitions.cyclicIdentifiers := by
  rw [inlineAcyclic, OrderedMap.keys_mapValues, OrderedMap.keys_filterKeys, cyclicIdentifiers]

/-- Inlining keeps an extraction closed. -/
theorem closed_inlineAcyclic {root : Node} (h : Extraction.Closed ⟨root, definitions⟩) :
    (definitions.inlineAcyclic root).Closed := by
  -- what is left was closed before, and is not dropped
  have hcloses {node : Node} (hnode : definitions.Closes node) :
      (definitions.inlineAcyclic root).definitions.Closes (definitions.inlineInto node) := by
    intro identifier displayName ho
    obtain ⟨hnot, hin⟩ := occurs_of_inlineInto ho
    have hdefinition : ∃ definition, definitions.get? identifier = some definition ∧
        definition.label = displayName := by
      rcases hin with hin | ⟨other, body, hbody, hin⟩
      · exact hnode identifier displayName hin
      · obtain ⟨definition, hd, rfl⟩ := Option.map_eq_some_iff.mp hbody
        exact h.bodies other definition hd identifier displayName hin
    obtain ⟨definition, hd, hlabel⟩ := hdefinition
    have hcyclic : definitions.isCyclic identifier = true := by
      by_contra hc
      exact hnot ⟨OrderedMap.mem_keys_iff.mpr ⟨definition, hd⟩, by simpa using hc⟩
    refine ⟨{ definition with node := definitions.inlineInto definition.node }, ?_, hlabel⟩
    rw [get?_inlineAcyclic, if_pos hcyclic, hd]
    rfl
  refine ⟨hcloses h.root, ?_⟩
  intro identifier definition hd
  rw [get?_inlineAcyclic] at hd
  split at hd
  · obtain ⟨old, hold, rfl⟩ := Option.map_eq_some_iff.mp hd
    exact hcloses (h.bodies identifier old hold)
  · cases hd

/-- Inlining keeps definitions in reach: the acyclic ones between them are passed through. -/
theorem connected_inlineAcyclic {root : Node} (h : Extraction.Connected ⟨root, definitions⟩) :
    (definitions.inlineAcyclic root).Connected := by
  intro goal hgoal
  rw [keys_inlineAcyclic, cyclicIdentifiers, List.mem_filter] at hgoal
  obtain ⟨hmem, hcyclic⟩ := hgoal
  obtain ⟨first, hfirst, hway⟩ := h goal hmem
  -- generalized to nodes, as the way goes on inside of inlined bodies
  suffices ∀ node : Node, first ∈ node.mentions →
      ∃ next ∈ (definitions.inlineInto node).mentions,
        ReflTransGen (definitions.inlineAcyclic root).definitions.Refers next goal from
    this root hfirst
  clear hfirst
  induction hway using ReflTransGen.head_induction_on with
  | refl =>
    intro node hnode
    refine ⟨goal, ?_, .refl⟩
    obtain ⟨name, hname⟩ := Node.mem_mentions_iff.mp hnode
    refine Node.mem_mentions_iff.mpr ⟨name, occurs_inlineInto_iff.mpr ⟨goal, name, hname, ?_⟩⟩
    -- the goal is cyclic, so the reference to it stays
    rw [inlineInto_reference_of_not fun hacyclic => ?_]
    · exact .self
    · rw [hacyclic.2] at hcyclic
      exact Bool.false_ne_true hcyclic
  | @head first second hstep _ ih =>
    intro node hnode
    obtain ⟨body, hbody, hsecond⟩ := refers_iff.mp hstep
    obtain ⟨next, hnext, hrest⟩ := ih body hsecond
    obtain ⟨name, hname⟩ := Node.mem_mentions_iff.mp hnode
    by_cases hacyclic : definitions.Acyclic first
    · -- the body stands in the node now
      obtain ⟨nextName, hnext⟩ := Node.mem_mentions_iff.mp hnext
      have hin : Node.Occurs (.reference next nextName) (definitions.inlineInto node) := by
        refine occurs_inlineInto_iff.mpr ⟨first, name, hname, ?_⟩
        rwa [inlineInto_reference hacyclic hbody]
      exact ⟨next, Node.mem_mentions_iff.mpr ⟨nextName, hin⟩, hrest⟩
    · have hfirst : definitions.isCyclic first = true := by
        by_contra hc
        exact hacyclic ⟨hstep.mem_keys, by simpa using hc⟩
      have hin : Node.Occurs (.reference first name) (definitions.inlineInto node) := by
        refine occurs_inlineInto_iff.mpr ⟨first, name, hname, ?_⟩
        rw [inlineInto_reference_of_not hacyclic]
        exact .self
      have hrefers : (definitions.inlineAcyclic root).definitions.Refers first next := by
        refine refers_iff.mpr ⟨definitions.inlineInto body, ?_, hnext⟩
        rw [node?_inlineAcyclic, if_pos hfirst, hbody]
        rfl
      exact ⟨first, Node.mem_mentions_iff.mpr ⟨name, hin⟩, .head hrefers hrest⟩

end DefinitionMap

end TypeGraph
