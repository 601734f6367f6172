import TypeGraph.Node.Optional
import TypeGraph.Proofs.Definition.Inlining
import TypeGraph.Proofs.Lists

/-!
# What an extraction means

References are a way to write a type down, and so are unions in unions. The meaning of a node leaves
both out: it is what stands at the ends of its paths, where a path goes into arrays, properties,
slots and so on, and goes through references and unions without noticing. `Node.Shows` says this
with a bound on the references, so that proofs have something to count; the meaning is what is shown
for some bound.

Main results:

* `Below.of_parts`, `Below.optional`: parts of the same meaning make nodes of the same meaning.
* `DefinitionMap.sameMeaning_inlineAcyclic`: inlining does not change the meaning.
-/

namespace TypeGraph

namespace Node

/-! ## Paths -/

/-- Which part of a node. The members of a union are no parts. -/
inductive Selector where
  | element
  | key
  | value
  | property (name : String)
  | slot (index : Nat)
  | member (index : Nat)
  | parameter (index : Nat)
  | returns

/-- What selects each of the children, in order. -/
def selectors : Node → List Selector
  | primitive _ | literal _ | union _ _ | reference _ _ => []
  | array _ | set _ => [.element]
  | record _ _ | map _ _ => [.key, .value]
  | object shape => shape.map fun property => .property property.1
  | tuple _ rest => (List.range (rest.length + 1)).map .slot
  | intersection _ rest => (List.range (rest.length + 1)).map .member
  | function parameters returns =>
    (List.range parameters.length).map .parameter ++ returns.toList.map fun _ => .returns

/-- The parts of a node with what selects them. -/
def parts (node : Node) : List (Selector × Node) := node.selectors.zip node.children

theorem selectors_head (node : Node) : node.head.selectors = node.selectors := by
  cases node with
  | object shape => simp [head, mapChildren, selectors, Function.comp_def]
  | tuple first rest | intersection first rest => simp [head, mapChildren, selectors]
  | function parameters returns => cases returns <;> simp [head, mapChildren, selectors]
  | _ => rfl

/-! ## Meaning -/

/-- What stands at the end of a path, when at most `steps` references are followed on the way. -/
inductive Shows (definitions : DefinitionMap) : Nat → Node → List Selector → Node → Prop where
  | head {steps : Nat} {node : Node} (union : node.kind ≠ .union)
      (reference : node.kind ≠ .reference) :
      Shows definitions steps node [] node.head
  | part {steps : Nat} {node part : Node} {selector : Selector} {path : List Selector}
      {shown : Node}
      (mem : (selector, part) ∈ node.parts) (shows : Shows definitions steps part path shown) :
      Shows definitions steps node (selector :: path) shown
  | member {steps : Nat} {first member : Node} {rest : List Node} {path : List Selector}
      {shown : Node} (mem : member ∈ first :: rest)
      (shows : Shows definitions steps member path shown) :
      Shows definitions steps (.union first rest) path shown
  | follow {steps : Nat} {identifier : String} {displayName : Option String} {body : Node}
      {path : List Selector} {shown : Node} (body? : definitions.node? identifier = some body)
      (shows : Shows definitions steps body path shown) :
      Shows definitions (steps + 1) (.reference identifier displayName) path shown

theorem exists_of_anyOptional {nodes : List Node} (h : anyOptional nodes = true) :
    ∃ node ∈ nodes, node.isOptional = true := by
  induction nodes with
  | nil => cases h
  | cons node rest ih =>
    rw [anyOptional, Bool.or_eq_true] at h
    rcases h with h | h
    · exact ⟨node, List.mem_cons_self, h⟩
    · obtain ⟨other, ho, h⟩ := ih h
      exact ⟨other, List.mem_cons_of_mem _ ho, h⟩

/-- An optional node shows `undefined`. -/
theorem shows_of_isOptional (definitions : DefinitionMap) (steps : Nat) {node : Node}
    (h : node.isOptional = true) : Shows definitions steps node [] .undefined := by
  -- induction on the node: what is optional is `undefined` or has an optional member
  induction node using inductionOnChildren with
  | step node ih =>
    cases node with
    | primitive p =>
      cases p with
      | undefined => exact .head (by simp [kind]) (by simp [kind])
      | _ => cases h
    | union first rest =>
      rw [isOptional, Bool.or_eq_true] at h
      rcases h with h | h
      · exact .member List.mem_cons_self (ih first List.mem_cons_self h)
      · obtain ⟨member, hm, h⟩ := exists_of_anyOptional h
        exact .member (List.mem_cons_of_mem _ hm) (ih member (List.mem_cons_of_mem _ hm) h)
    | _ => cases h

/-- Making a node optional adds `undefined` to what it shows, and nothing else. -/
theorem shows_optional_iff {definitions : DefinitionMap} {steps : Nat} {node : Node}
    {path : List Selector} {shown : Node} :
    Shows definitions steps node.optional path shown ↔
      Shows definitions steps node path shown ∨ path = [] ∧ shown = .undefined := by
  unfold optional
  split
  · rename_i hoptional
    refine (or_iff_left_of_imp ?_).symm
    -- nothing is added to a node that is optional already
    rintro ⟨rfl, rfl⟩
    exact shows_of_isOptional definitions steps hoptional
  · constructor
    · -- a union has no head and no parts of its own, so one of its two members shows it
      intro h
      cases h with
      | head union => exact absurd rfl union
      | part mem => exact absurd mem List.not_mem_nil
      | member mem shows =>
        rcases List.mem_cons.mp mem with rfl | mem
        · exact .inl shows
        · obtain rfl := List.mem_singleton.mp mem
          cases shows with
          | head => exact .inr ⟨rfl, rfl⟩
          | part mem => exact absurd mem List.not_mem_nil
    · rintro (h | ⟨rfl, rfl⟩)
      · exact .member List.mem_cons_self h
      · exact .member (List.mem_cons_of_mem _ List.mem_cons_self)
          (.head (by simp [kind]) (by simp [kind]))

end Node

/-! ## Comparing meanings -/

open Node

/-- Whatever a node shows when it follows so many references, another node shows as well. -/
def Below (steps : Nat) (definitions definitions' : DefinitionMap) (node node' : Node) : Prop :=
  ∀ path shown, Shows definitions steps node path shown →
    ∃ steps', Shows definitions' steps' node' path shown

section

variable {steps : Nat} {definitions definitions' : DefinitionMap} {node node' : Node}

/-- Nodes with one head are compared by their parts. -/
theorem Below.of_parts (hkind : node.kind ≠ .reference) (hhead : node.head = node'.head)
    (hparts : List.Forall₂ (Below steps definitions definitions') node.children node'.children) :
    Below steps definitions definitions' node node' := by
  have hkind' := kind_eq_of_head hhead
  intro path shown h
  cases h with
  | head union reference =>
    exact ⟨0, hhead ▸ .head (hkind' ▸ union) (hkind' ▸ reference)⟩
  | part mem shows =>
    -- the part with the same selector on the other side shows the rest of the path
    obtain ⟨part', hm, hpart⟩ := exists_of_mem_zip hparts mem
    obtain ⟨steps', shows⟩ := hpart _ _ shows
    refine ⟨steps', .part ?_ shows⟩
    rwa [← selectors_head, hhead, selectors_head] at hm
  | member mem shows =>
    -- the heads agree, so the other node is a union as well
    cases node' with
    | union first rest =>
      obtain ⟨member', hm, hmember⟩ := exists_of_mem_forall₂ hparts mem
      obtain ⟨steps', shows⟩ := hmember _ _ shows
      exact ⟨steps', .member hm shows⟩
    | _ => cases hkind'
  | follow => exact absurd rfl hkind

theorem Below.optional (h : Below steps definitions definitions' node node') :
    Below steps definitions definitions' node.optional node'.optional := by
  intro path shown hshown
  rcases shows_optional_iff.mp hshown with hshown | hundefined
  · obtain ⟨steps', hshown⟩ := h path shown hshown
    exact ⟨steps', shows_optional_iff.mpr (.inl hshown)⟩
  · exact ⟨0, shows_optional_iff.mpr (.inr hundefined)⟩

/-- References are compared by what is shown behind them, with one reference less to follow. -/
theorem Below.reference {identifier : String} {displayName : Option String}
    (h : ∀ fewer < steps, ∀ body, definitions.node? identifier = some body →
      Below fewer definitions definitions' body node') :
    Below steps definitions definitions' (.reference identifier displayName) node' := by
  intro path shown hshown
  cases hshown with
  | head _ reference => exact absurd rfl reference
  | part mem => exact absurd mem List.not_mem_nil
  | follow body? shows => exact h _ (Nat.lt_succ_self _) _ body? path shown shows

theorem Below.trans_follow {identifier : String} {displayName : Option String} {body : Node}
    (h : Below steps definitions definitions' node body)
    (hbody : definitions'.node? identifier = some body) :
    Below steps definitions definitions' node (.reference identifier displayName) := by
  intro path shown hshown
  obtain ⟨steps', hshown⟩ := h path shown hshown
  exact ⟨steps' + 1, .follow hbody hshown⟩

end

/-! ## Meaning of extractions -/

namespace Extraction

/-- What stands at the end of a path from the root. -/
def Shows (extraction : Extraction) (path : List Selector) (shown : Node) : Prop :=
  ∃ steps, Node.Shows extraction.definitions steps extraction.root path shown

/-- The two show the same at the end of every path. -/
def SameMeaning (extraction extraction' : Extraction) : Prop :=
  ∀ path shown, extraction.Shows path shown ↔ extraction'.Shows path shown

theorem SameMeaning.symm {extraction extraction' : Extraction}
    (h : extraction.SameMeaning extraction') : extraction'.SameMeaning extraction :=
  fun path shown => (h path shown).symm

theorem SameMeaning.trans {extraction₁ extraction₂ extraction₃ : Extraction}
    (h : extraction₁.SameMeaning extraction₂) (h' : extraction₂.SameMeaning extraction₃) :
    extraction₁.SameMeaning extraction₃ :=
  fun path shown => (h path shown).trans (h' path shown)

theorem sameMeaning_of_below {extraction extraction' : Extraction}
    (h : ∀ steps, Below steps extraction.definitions extraction'.definitions extraction.root
      extraction'.root)
    (h' : ∀ steps, Below steps extraction'.definitions extraction.definitions extraction'.root
      extraction.root) : extraction.SameMeaning extraction' :=
  fun path shown => ⟨fun ⟨steps, hshown⟩ => h steps path shown hshown,
    fun ⟨steps, hshown⟩ => h' steps path shown hshown⟩

end Extraction

/-! ## Inlining -/

namespace DefinitionMap

variable {definitions : DefinitionMap} (root : Node)

theorem head_inlineInto {node : Node} (hkind : node.kind ≠ .reference) :
    (definitions.inlineInto node).head = node.head := by
  rw [inlineInto, Node.substitute_eq _ hkind, head_mapChildren]

theorem children_inlineInto {node : Node} (hkind : node.kind ≠ .reference) :
    (definitions.inlineInto node).children = node.children.map definitions.inlineInto := by
  rw [inlineInto, Node.substitute_eq _ hkind, children_mapChildren]
  rfl

/-- What is inlined into a node was shown through references before. -/
theorem below_inlineInto (steps : Nat) (node : Node) :
    Below steps definitions (definitions.inlineAcyclic root).definitions node
      (definitions.inlineInto node) := by
  -- outer induction on the references to follow, inner one on the node
  induction steps using Nat.strong_induction_on generalizing node with
  | _ steps ihsteps =>
    induction node using inductionOnReferences with
    | reference identifier displayName =>
      refine Below.reference ?_
      intro fewer hlt body hbody
      by_cases hacyclic : definitions.Acyclic identifier
      · -- an inlined reference is what it was shown to be, one step further on
        rw [inlineInto_reference hacyclic hbody]
        exact ihsteps fewer hlt body
      · -- a reference that stays still has its definition, with the rest inlined into it
        rw [inlineInto_reference_of_not hacyclic]
        refine (ihsteps fewer hlt body).trans_follow ?_
        have hmem := node?_isSome_iff.mp (hbody ▸ rfl : (definitions.node? identifier).isSome)
        rw [node?_inlineAcyclic, if_pos, hbody, Option.map_some]
        by_contra hcyclic
        exact hacyclic ⟨hmem, by simpa using hcyclic⟩
    | parts node hkind ih =>
      refine .of_parts hkind (head_inlineInto hkind).symm ?_
      rw [children_inlineInto hkind, List.forall₂_map_right_iff, List.forall₂_same]
      exact ih

/-- If what stands for the references in a node shows nothing new, neither does the node. -/
theorem inlineInto_below {steps : Nat} {node : Node}
    (h : ∀ identifier ∈ node.mentions, ∀ displayName,
      Below steps (definitions.inlineAcyclic root).definitions definitions
        (definitions.inlineInto (.reference identifier displayName))
        (.reference identifier displayName)) :
    Below steps (definitions.inlineAcyclic root).definitions definitions
      (definitions.inlineInto node) node := by
  -- induction on the node, down to its references
  induction node using inductionOnReferences with
  | reference identifier displayName => exact h identifier List.mem_cons_self displayName
  | parts node hkind ih =>
    have hkind' : (definitions.inlineInto node).kind ≠ .reference := by
      rwa [kind_eq_of_head (head_inlineInto hkind)]
    refine .of_parts hkind' (head_inlineInto hkind) ?_
    rw [children_inlineInto hkind, List.forall₂_map_left_iff, List.forall₂_same]
    exact fun child hc => ih child hc fun identifier hi =>
      h identifier ((Occurs.child hc .self).mentions_subset hi)

theorem inlineInto_reference_below (steps : Nat) (identifier : String)
    (displayName : Option String) :
    Below steps (definitions.inlineAcyclic root).definitions definitions
      (definitions.inlineInto (.reference identifier displayName))
      (.reference identifier displayName) := by
  induction steps using Nat.strong_induction_on generalizing identifier displayName with
  | _ steps ihsteps =>
    -- a reference that stays is followed, which leaves fewer steps
    have hstays (other : String) (name : Option String) (hother : ¬ definitions.Acyclic other) :
        Below steps (definitions.inlineAcyclic root).definitions definitions
          (definitions.inlineInto (.reference other name)) (.reference other name) := by
      rw [inlineInto_reference_of_not hother]
      refine Below.reference ?_
      intro fewer hlt body hbody
      rw [node?_inlineAcyclic] at hbody
      split at hbody
      · obtain ⟨old, hold, rfl⟩ := Option.map_eq_some_iff.mp hbody
        refine Below.trans_follow ?_ hold
        exact inlineInto_below root fun next _ nextName => ihsteps fewer hlt next nextName
      · cases hbody
    by_cases hacyclic : definitions.Acyclic identifier
    · -- an inlined reference is compared by the references in its body, along the order of inlining
      revert displayName
      refine inductionOnAcyclic ?_ hacyclic
      intro identifier hacyclic ih displayName
      obtain ⟨body, hbody, -⟩ := expand_of_acyclic hacyclic
      rw [inlineInto_reference hacyclic hbody]
      refine Below.trans_follow ?_ hbody
      refine inlineInto_below root ?_
      intro other ho name
      by_cases hother : definitions.Acyclic other
      · exact ih other (refers_iff.mpr ⟨body, hbody, ho⟩) hother name
      · exact hstays other name hother
    · exact hstays identifier displayName hacyclic

/-- Inlining does not change the meaning. -/
theorem sameMeaning_inlineAcyclic :
    Extraction.SameMeaning ⟨root, definitions⟩ (definitions.inlineAcyclic root) :=
  Extraction.sameMeaning_of_below (fun steps => below_inlineInto root steps root) fun steps =>
    inlineInto_below root fun identifier _ displayName =>
      inlineInto_reference_below root steps identifier displayName

end DefinitionMap

end TypeGraph
