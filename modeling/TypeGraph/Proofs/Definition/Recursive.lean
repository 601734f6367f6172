import TypeGraph.Proofs.Definition.Inlining
import TypeGraph.Proofs.Definition.Resolve

/-!
# What inlining leaves

Inlining drops the definitions that cannot reach themselves and keeps the others as they were, with
their labels and in their order. What is kept stays recursive: a definition on a cycle refers to the
next one on it, and that reference is not touched. So there is nothing left to inline afterwards.

Going into a node by positions, with references followed on the way, meets the same before and
after.

Main results:

* `DefinitionMap.inlines_inlineInto`: inlining is a recursion that ends without a bound.
* `DefinitionMap.resolves_inlineInto_iff`: what a node is resolved to is inlined, and nothing else.
* `DefinitionMap.inlineAcyclic_leavesRecursive`: all that inlining leaves.
-/

namespace TypeGraph.DefinitionMap

open Relation

variable {definitions : DefinitionMap}

/-! ## Inlining without a bound -/

/-- Inlining as a recursion from references into bodies, as deep as it goes. -/
inductive Inlines (definitions : DefinitionMap) : Node → Node → Prop where
  | stays {identifier : String} {displayName : Option String}
      (not_acyclic : ¬ definitions.Acyclic identifier) :
      Inlines definitions (.reference identifier displayName) (.reference identifier displayName)
  | replaced {identifier : String} {displayName : Option String} {body inlined : Node}
      (acyclic : definitions.Acyclic identifier) (body? : definitions.node? identifier = some body)
      (inlines : Inlines definitions body inlined) :
      Inlines definitions (.reference identifier displayName) inlined
  | parts {node : Node} {inline : Node → Node} (kind : node.kind ≠ .reference)
      (inlines : ∀ child ∈ node.children, Inlines definitions child (inline child)) :
      Inlines definitions node (node.mapChildren inline)

theorem inlineInto_eq_mapChildren {node : Node} (hkind : node.kind ≠ .reference) :
    definitions.inlineInto node = node.mapChildren definitions.inlineInto :=
  Node.substitute_eq _ hkind

/-- Where the recursion ends at the references of a node, it ends at the node. -/
theorem inlines_of_references {node : Node}
    (h : ∀ identifier ∈ node.mentions, ∀ displayName,
      Inlines definitions (.reference identifier displayName)
        (definitions.inlineInto (.reference identifier displayName))) :
    Inlines definitions node (definitions.inlineInto node) := by
  induction node using Node.inductionOnReferences with
  | reference identifier displayName => exact h identifier List.mem_cons_self displayName
  | parts node hkind ih =>
    rw [inlineInto_eq_mapChildren hkind]
    refine .parts hkind ?_
    exact fun child hc => ih child hc fun identifier hi =>
      h identifier ((Node.Occurs.child hc .self).mentions_subset hi)

/-- Inlining ends, with the node that the bounded expansion gives. -/
theorem inlines_inlineInto (node : Node) :
    Inlines definitions node (definitions.inlineInto node) := by
  refine inlines_of_references ?_
  intro identifier _ displayName
  by_cases hacyclic : definitions.Acyclic identifier
  · -- along the order of inlining: the bodies that are put in have been gone through
    revert displayName
    refine inductionOnAcyclic ?_ hacyclic
    intro identifier hacyclic ih displayName
    obtain ⟨body, hbody, -⟩ := expand_of_acyclic hacyclic
    rw [inlineInto_reference hacyclic hbody]
    refine .replaced hacyclic hbody (inlines_of_references ?_)
    intro other hother name
    by_cases hother' : definitions.Acyclic other
    · exact ih other (refers_iff.mpr ⟨body, hbody, hother⟩) hother' name
    · rw [inlineInto_reference_of_not hother']
      exact .stays hother'
  · rw [inlineInto_reference_of_not hacyclic]
    exact .stays hacyclic

/-! ## Cycles survive -/

theorem mem_keys_inlineAcyclic_iff (root : Node) {identifier : String} :
    identifier ∈ (definitions.inlineAcyclic root).definitions.keys ↔
      TransGen definitions.Refers identifier identifier := by
  rw [keys_inlineAcyclic, cyclicIdentifiers, List.mem_filter, isCyclic_iff]
  refine and_iff_right_of_imp ?_
  intro h
  obtain ⟨next, hstep, -⟩ := TransGen.head'_iff.mp h
  exact hstep.mem_keys

theorem not_acyclic_of_transGen {identifier : String}
    (h : TransGen definitions.Refers identifier identifier) : ¬ definitions.Acyclic identifier := by
  intro hacyclic
  have hcyclic := isCyclic_iff.mpr h
  rw [hacyclic.2] at hcyclic
  exact Bool.false_ne_true hcyclic

/-- A recursive definition still refers to the recursive ones that it referred to. -/
theorem refers_inlineAcyclic (root : Node) {identifier other : String}
    (h : definitions.Refers identifier other)
    (hidentifier : TransGen definitions.Refers identifier identifier)
    (hother : TransGen definitions.Refers other other) :
    (definitions.inlineAcyclic root).definitions.Refers identifier other := by
  obtain ⟨body, hbody, hmention⟩ := refers_iff.mp h
  obtain ⟨displayName, hoccurs⟩ := Node.mem_mentions_iff.mp hmention
  refine refers_iff.mpr ⟨definitions.inlineInto body, ?_, ?_⟩
  · rw [node?_inlineAcyclic, if_pos (isCyclic_iff.mpr hidentifier), hbody]
    rfl
  · refine Node.mem_mentions_iff.mpr
      ⟨displayName, occurs_inlineInto_iff.mpr ⟨other, displayName, hoccurs, ?_⟩⟩
    rw [inlineInto_reference_of_not (not_acyclic_of_transGen hother)]
    exact .self

/-- A way that can be closed to a cycle is still there. -/
theorem transGen_inlineAcyclic (root : Node) {start goal : String}
    (h : TransGen definitions.Refers start goal)
    (hclose : ReflTransGen definitions.Refers goal start) :
    TransGen (definitions.inlineAcyclic root).definitions.Refers start goal := by
  -- induction from the goal backwards: every definition on the way is on the cycle
  induction h using TransGen.head_induction_on with
  | @single start hstep =>
    exact .single (refers_inlineAcyclic root hstep (.head' hstep hclose) (.tail' hclose hstep))
  | @head start next hstep hway ih =>
    have hstart : TransGen definitions.Refers start start := .head hstep (hway.trans_left hclose)
    have hnext : TransGen definitions.Refers next next :=
      (hway.trans_left hclose).trans (.single hstep)
    exact .head (refers_inlineAcyclic root hstep hstart hnext) (ih (hclose.tail hstep))

theorem isCyclic_inlineAcyclic (root : Node) {identifier : String}
    (h : identifier ∈ (definitions.inlineAcyclic root).definitions.keys) :
    (definitions.inlineAcyclic root).definitions.isCyclic identifier = true := by
  have hcycle := (mem_keys_inlineAcyclic_iff root).mp h
  exact isCyclic_iff.mpr (transGen_inlineAcyclic root hcycle .refl)

/-! ## Nothing is left to inline -/

/-- Without acyclic definitions inlining changes no node. -/
theorem inlineInto_eq_self (h : ∀ identifier, ¬ definitions.Acyclic identifier) (node : Node) :
    definitions.inlineInto node = node := by
  induction node using Node.inductionOnReferences with
  | reference identifier displayName => exact inlineInto_reference_of_not (h identifier)
  | parts node hkind ih =>
    rw [inlineInto_eq_mapChildren hkind, Node.mapChildren_congr ih, Node.mapChildren_id]

/-- Where all definitions are recursive, inlining changes nothing. -/
theorem inlineAcyclic_eq_self (h : ∀ identifier ∈ definitions.keys,
    definitions.isCyclic identifier = true) (root : Node) :
    definitions.inlineAcyclic root = ⟨root, definitions⟩ := by
  have hnone : ∀ identifier, ¬ definitions.Acyclic identifier := by
    intro identifier hacyclic
    have hcyclic := h identifier hacyclic.1
    rw [hacyclic.2] at hcyclic
    exact Bool.false_ne_true hcyclic
  have hentries : (definitions.inlineAcyclic root).definitions.entries = definitions.entries := by
    simp only [inlineAcyclic, OrderedMap.mapValues, OrderedMap.filterKeys,
      inlineInto_eq_self hnone]
    rw [List.filter_eq_self.mpr fun entry he => h entry.1 (List.mem_map_of_mem he)]
    exact List.map_id _
  exact congrArg₂ Extraction.mk (inlineInto_eq_self hnone root) (OrderedMap.ext hentries)

/-! ## Positions -/

/-- What stands where a path of positions leads, without what is inside of it. References are
followed before each step and at the end; `none` if there is no such position. -/
def headAt (definitions : DefinitionMap) : Node → List Nat → Except Error (Option Node)
  | node, [] => do return some (← definitions.resolve node).head
  | node, position :: path => do
    match (← definitions.resolve node).children[position]? with
    | some child => headAt definitions child path
    | none => return none

/-- Both give the same, or both come to a reference that cannot be resolved. -/
inductive SameAnswer {α : Type} : Except Error α → Except Error α → Prop where
  | value (value : α) : SameAnswer (.ok value) (.ok value)
  | unresolved (identifier other : String) :
      SameAnswer (.error (.unresolvedReference identifier)) (.error (.unresolvedReference other))

/-- What inlining comes to at a node, on its way through acyclic definitions: it is inlined and
resolved like the node, and is no reference that will be replaced. -/
structure Kept (definitions : DefinitionMap) (node kept : Node) : Prop where
  inlineInto_eq : definitions.inlineInto kept = definitions.inlineInto node
  resolves_iff : ∀ target, Resolves definitions kept target ↔ Resolves definitions node target
  not_acyclic : ∀ identifier displayName, kept = .reference identifier displayName →
    ¬ definitions.Acyclic identifier

theorem exists_kept (node : Node) : ∃ kept, definitions.Kept node kept := by
  by_cases hacyclic : ∃ identifier displayName, node = .reference identifier displayName ∧
      definitions.Acyclic identifier
  · obtain ⟨identifier, displayName, rfl, hacyclic⟩ := hacyclic
    revert displayName
    refine inductionOnAcyclic ?_ hacyclic
    intro identifier hacyclic ih displayName
    obtain ⟨body, hbody, -⟩ := expand_of_acyclic hacyclic
    -- the body is kept, or it is a reference to another acyclic definition
    have hpass : ∃ kept, definitions.Kept body kept := by
      by_cases hother : ∃ other name, body = .reference other name ∧ definitions.Acyclic other
      · obtain ⟨other, name, rfl, hother⟩ := hother
        exact ih other (refers_iff.mpr ⟨_, hbody, List.mem_cons_self⟩) hother name
      · exact ⟨body, rfl, fun _ => Iff.rfl,
          fun other name hbody hother' => hother ⟨other, name, hbody, hother'⟩⟩
    obtain ⟨kept, hkept⟩ := hpass
    have hresolves (target : Node) : Resolves definitions body target ↔
        Resolves definitions (.reference identifier displayName) target := by
      refine ⟨.follow hbody, fun h => ?_⟩
      cases h with
      | stop kind => exact absurd rfl kind
      | follow hbody' h =>
        rw [hbody, Option.some.injEq] at hbody'
        exact hbody' ▸ h
    exact ⟨kept, hkept.inlineInto_eq.trans (inlineInto_reference hacyclic hbody).symm,
      fun target => (hkept.resolves_iff target).trans (hresolves target), hkept.not_acyclic⟩
  · exact ⟨node, rfl, fun _ => Iff.rfl, fun identifier displayName hnode hacyclic' =>
      hacyclic ⟨identifier, displayName, hnode, hacyclic'⟩⟩

theorem kind_inlineInto {node : Node} (hkind : node.kind ≠ .reference) :
    (definitions.inlineInto node).kind ≠ .reference := by
  rwa [inlineInto_eq_mapChildren hkind, Node.kind_mapChildren]

theorem node?_inlineAcyclic_of_not (root : Node) {identifier : String} {body : Node}
    (h : ¬ definitions.Acyclic identifier) (hbody : definitions.node? identifier = some body) :
    (definitions.inlineAcyclic root).definitions.node? identifier =
      some (definitions.inlineInto body) := by
  have hmem : identifier ∈ definitions.keys := node?_isSome_iff.mp (by rw [hbody]; rfl)
  have hcyclic : definitions.isCyclic identifier = true := by
    by_contra hc
    exact h ⟨hmem, by simpa using hc⟩
  rw [node?_inlineAcyclic, if_pos hcyclic, hbody, Option.map_some]

/-- What a node is resolved to is inlined with it. -/
theorem Resolves.inlineInto (root : Node) {node target : Node}
    (h : Resolves definitions node target) :
    Resolves (definitions.inlineAcyclic root).definitions (definitions.inlineInto node)
      (definitions.inlineInto target) := by
  induction h with
  | stop kind => exact .stop (kind_inlineInto kind)
  | @follow identifier displayName body _ hbody _ ih =>
    by_cases hacyclic : definitions.Acyclic identifier
    · rwa [inlineInto_reference hacyclic hbody]
    · rw [inlineInto_reference_of_not hacyclic]
      exact .follow (node?_inlineAcyclic_of_not root hacyclic hbody) ih

/-- After inlining, a node is resolved to nothing but what it was resolved to before, inlined. -/
theorem exists_of_resolves_inlineInto (root : Node) {inlined target : Node}
    (h : Resolves (definitions.inlineAcyclic root).definitions inlined target) :
    ∀ node, definitions.inlineInto node = inlined →
      ∃ before, Resolves definitions node before ∧ target = definitions.inlineInto before := by
  -- induction on the references that are left, from what is kept of the node
  induction h with
  | stop kind =>
    rintro node rfl
    obtain ⟨kept, hkept⟩ := definitions.exists_kept node
    refine ⟨kept, (hkept.resolves_iff kept).mp (.stop ?_), hkept.inlineInto_eq.symm⟩
    intro hreference
    cases kept with
    | reference identifier displayName =>
      have hinlined := hkept.inlineInto_eq
      rw [inlineInto_reference_of_not (hkept.not_acyclic identifier displayName rfl)] at hinlined
      exact kind (hinlined ▸ rfl)
    | _ => cases hreference
  | @follow identifier displayName body target hbody _ ih =>
    intro node hnode
    obtain ⟨kept, hkept⟩ := definitions.exists_kept node
    have hinlined := hkept.inlineInto_eq.trans hnode
    by_cases hkind : kept.kind = .reference
    · cases kept with
      | reference other name =>
        rw [inlineInto_reference_of_not (hkept.not_acyclic other name rfl)] at hinlined
        cases hinlined
        -- the definition that is left has its old body, inlined
        rw [node?_inlineAcyclic] at hbody
        split at hbody
        · obtain ⟨old, hold, hbody⟩ := Option.map_eq_some_iff.mp hbody
          obtain ⟨before, hbefore, htarget⟩ := ih old hbody
          exact ⟨before, (hkept.resolves_iff before).mp (.follow hold hbefore), htarget⟩
        · cases hbody
      | _ => cases hkind
    · exact absurd (congrArg Node.kind hinlined) (kind_inlineInto hkind)

/-- A node is resolved after inlining exactly if it was before. -/
theorem resolve_inlineInto (root node : Node) :
    (∃ target, target.kind ≠ .reference ∧ definitions.resolve node = .ok target ∧
      (definitions.inlineAcyclic root).definitions.resolve (definitions.inlineInto node) =
        .ok (definitions.inlineInto target)) ∨
    ∃ identifier other, definitions.resolve node = .error (.unresolvedReference identifier) ∧
      (definitions.inlineAcyclic root).definitions.resolve (definitions.inlineInto node) =
        .error (.unresolvedReference other) := by
  by_cases hresolves : ∃ target, Resolves definitions node target
  · obtain ⟨target, htarget⟩ := hresolves
    exact .inl ⟨target, htarget.kind_ne, resolve_eq_ok_iff.mpr htarget,
      resolve_eq_ok_iff.mpr (htarget.inlineInto root)⟩
  · have hafter : ¬ ∃ target, Resolves (definitions.inlineAcyclic root).definitions
        (definitions.inlineInto node) target := by
      rintro ⟨target, htarget⟩
      obtain ⟨before, hbefore, -⟩ := exists_of_resolves_inlineInto root htarget node rfl
      exact hresolves ⟨before, hbefore⟩
    obtain ⟨identifier, herror⟩ := exists_error_of_resolve hresolves
    obtain ⟨other, herror'⟩ := exists_error_of_resolve hafter
    exact .inr ⟨identifier, other, herror, herror'⟩

/-- The answers at all positions are the same before and after. -/
theorem sameAnswer_headAt (root node : Node) (path : List Nat) :
    SameAnswer (definitions.headAt node path)
      ((definitions.inlineAcyclic root).definitions.headAt (definitions.inlineInto node) path) := by
  -- induction on the path; the first thing on it is to resolve the node
  induction path generalizing node with
  | nil =>
    rw [headAt, headAt]
    rcases resolve_inlineInto root node with
        ⟨target, hkind, hbefore, hafter⟩ | ⟨i, j, hbefore, hafter⟩
    · have hhead : (definitions.inlineInto target).head = target.head := by
        rw [inlineInto_eq_mapChildren hkind, Node.head_mapChildren]
      rw [hbefore, hafter]
      show SameAnswer (.ok (some target.head)) (.ok (some (definitions.inlineInto target).head))
      rw [hhead]
      exact .value _
    · rw [hbefore, hafter]
      exact .unresolved i j
  | cons position path ih =>
    rw [headAt, headAt]
    rcases resolve_inlineInto root node with
        ⟨target, hkind, hbefore, hafter⟩ | ⟨i, j, hbefore, hafter⟩
    · -- the positions of an inlined node hold the inlined children
      have hchildren : (definitions.inlineInto target).children[position]? =
          target.children[position]?.map definitions.inlineInto := by
        rw [inlineInto_eq_mapChildren hkind, Node.children_mapChildren, List.getElem?_map]
      rw [hbefore, hafter]
      simp only [bind, Except.bind, hchildren]
      cases target.children[position]? with
      | none => exact .value none
      | some child => exact ih child
    · rw [hbefore, hafter]
      exact .unresolved i j

/-! ## All that inlining leaves -/

/-- What inlining makes of definitions and a root. -/
structure LeavesRecursive (definitions : DefinitionMap) (root : Node)
    (result : Extraction) : Prop where
  /-- The recursion into the bodies of acyclic definitions ends, for the root and for what stays. -/
  inlines_root : Inlines definitions root result.root
  inlines_body : ∀ identifier definition, result.definitions.get? identifier = some definition →
    ∃ before, definitions.get? identifier = some before ∧
      Inlines definitions before.node definition.node ∧ definition.label = before.label
  /-- The definitions that stay are those that could reach themselves, in their order. -/
  recursive : ∀ identifier, identifier ∈ result.definitions.keys ↔
    TransGen definitions.Refers identifier identifier
  ordered : result.definitions.keys.Sublist definitions.keys
  /-- Nothing refers to a definition that was dropped. -/
  dropped : ∀ identifier ∈ definitions.keys, identifier ∉ result.definitions.keys →
    identifier ∉ result.root.mentions ∧
      ∀ other body, result.definitions.node? other = some body → identifier ∉ body.mentions
  heads : ∀ path,
      SameAnswer (definitions.headAt root path) (result.definitions.headAt result.root path)
  again : result.definitions.inlineAcyclic result.root = result

/-- Inlining ends, keeps what is recursive and nothing else, shows the same everywhere, and has
nothing left to do afterwards. -/
theorem inlineAcyclic_leavesRecursive (definitions : DefinitionMap) (root : Node) :
    LeavesRecursive definitions root (definitions.inlineAcyclic root) where
  inlines_root := inlines_inlineInto root
  inlines_body identifier definition hd := by
    rw [get?_inlineAcyclic] at hd
    split at hd
    · obtain ⟨before, hbefore, rfl⟩ := Option.map_eq_some_iff.mp hd
      exact ⟨before, hbefore, inlines_inlineInto before.node, rfl⟩
    · cases hd
  recursive _ := mem_keys_inlineAcyclic_iff root
  ordered := by
    rw [keys_inlineAcyclic]
    exact List.filter_sublist
  dropped identifier hmem hdropped := by
    have hacyclic : definitions.Acyclic identifier := by
      refine ⟨hmem, ?_⟩
      rwa [mem_keys_inlineAcyclic_iff, ← isCyclic_iff, Bool.not_eq_true] at hdropped
    -- no node has a reference to it once acyclic definitions are inlined
    have hnode (node : Node) : identifier ∉ (definitions.inlineInto node).mentions := by
      intro hmention
      obtain ⟨displayName, hoccurs⟩ := Node.mem_mentions_iff.mp hmention
      exact (occurs_of_inlineInto hoccurs).1 hacyclic
    refine ⟨hnode root, fun other body hbody => ?_⟩
    rw [node?_inlineAcyclic] at hbody
    split at hbody
    · obtain ⟨before, -, rfl⟩ := Option.map_eq_some_iff.mp hbody
      exact hnode before
    · cases hbody
  heads := sameAnswer_headAt root root
  again := inlineAcyclic_eq_self (fun _ => isCyclic_inlineAcyclic root) _

end TypeGraph.DefinitionMap
