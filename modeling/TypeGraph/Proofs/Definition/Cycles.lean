import TypeGraph.Proofs.Definition.Reach

/-!
# Recursive definitions

A definition is recursive if a chain of references leads from it back to itself: the first reference
stands somewhere in its body, the second somewhere in the body of the definition that the first one
names, and so on (`DefinitionMap.Leads`). A reference without a definition leads nowhere, and so it
is on no such chain.

`DefinitionMap.cyclicIdentifiers` looks for these chains with a list of identifiers still to come to
and a list of definitions not seen yet. Each step takes one identifier, and a definition hands on
what it mentions only when it is first seen. So the search takes no more steps than there are
mentions, whatever leads where.

Main results:

* `DefinitionMap.length_reachableFrom_le`: how many steps the search takes.
* `DefinitionMap.cyclicIdentifiers_exact`: it finds the recursive definitions, each once and in
  order.
-/

namespace TypeGraph.DefinitionMap

open Relation

variable {definitions : DefinitionMap}

/-- Somewhere in the body of the first definition a reference names the second. -/
def Leads (definitions : DefinitionMap) (identifier other : String) : Prop :=
  ∃ body displayName, definitions.node? identifier = some body ∧
    Node.Occurs (.reference other displayName) body

/-- What a body mentions is what its references name. -/
theorem leads_eq_refers : definitions.Leads = definitions.Refers := by
  funext identifier other
  refine propext ⟨?_, fun h => ?_⟩
  · rintro ⟨body, displayName, hbody, hoccurs⟩
    exact refers_iff.mpr ⟨body, hbody, Node.mem_mentions_iff.mpr ⟨displayName, hoccurs⟩⟩
  · obtain ⟨body, hbody, hmention⟩ := refers_iff.mp h
    obtain ⟨displayName, hoccurs⟩ := Node.mem_mentions_iff.mp hmention
    exact ⟨body, displayName, hbody, hoccurs⟩

/-! ## Steps of the search -/

/-- How many identifiers the definitions hand on, each the ones that its body mentions. -/
def handedOn (definitions : DefinitionMap) (identifiers : List String) : Nat :=
  (identifiers.flatMap definitions.referencesOf).length

theorem handedOn_erase {identifiers : List String} {identifier : String}
    (h : identifier ∈ identifiers) :
    definitions.handedOn identifiers =
      (definitions.referencesOf identifier).length +
        definitions.handedOn (identifiers.erase identifier) := by
  have hperm := (List.perm_cons_erase h).flatMap_right definitions.referencesOf
  rw [handedOn, hperm.length_eq, List.flatMap_cons, List.length_append, handedOn]

/-- The search writes down one identifier a step: the pending ones, and what unseen definitions hand
on. -/
theorem length_closure_le (unseen pending : List String) :
    (definitions.closure unseen pending).length ≤ pending.length + definitions.handedOn unseen := by
  -- induction on the search itself
  induction unseen, pending using closure.induct definitions with
  | case1 unseen => simp [closure]
  | case2 unseen identifier pending hunseen _ ih =>
    -- the definition is seen for the first time: what it hands on is pending now
    rw [List.length_append] at ih
    rw [closure, dif_pos hunseen, List.length_cons, List.length_cons, handedOn_erase hunseen]
    omega
  | case3 unseen identifier pending hseen ih =>
    rw [closure, dif_neg hseen, List.length_cons, List.length_cons]
    omega

/-- From a definition the search takes at most a step for each mention in its body, and one for each
mention in any body. -/
theorem length_reachableFrom_le (identifier : String) :
    (definitions.reachableFrom identifier).length ≤
      (definitions.referencesOf identifier).length + definitions.handedOn definitions.keys :=
  length_closure_le _ _

/-! ## What is found -/

/-- The identifiers are those of the recursive definitions, and the search for them ends. -/
structure FindsCycles (definitions : DefinitionMap) (found : List String) : Prop where
  mem_iff : ∀ identifier, identifier ∈ found ↔
    identifier ∈ definitions.keys ∧ TransGen definitions.Leads identifier identifier
  ordered : found.Sublist definitions.keys
  steps : ∀ identifier, (definitions.reachableFrom identifier).length ≤
    (definitions.referencesOf identifier).length + definitions.handedOn definitions.keys

/-- The cyclic identifiers are those of the recursive definitions, each once and as registered. -/
theorem cyclicIdentifiers_exact (definitions : DefinitionMap) :
    FindsCycles definitions definitions.cyclicIdentifiers where
  mem_iff identifier := by
    rw [cyclicIdentifiers, List.mem_filter, isCyclic_iff, leads_eq_refers]
  ordered := List.filter_sublist
  steps _ := length_reachableFrom_le _

end TypeGraph.DefinitionMap
