import TypeGraph.Proofs.Extraction.Shape
import TypeGraph.Proofs.Lists
import TypeGraph.Proofs.Node.Occurs

/-!
# Levels of related nodes

Putting a level together does not look into the nodes inside, except for asking whether they are
optional. So a relation that passes from parts to nodes, and to optional nodes, passes from the
nodes inside to the level.

Main results:

* `Shape.related_build`: related nodes make related levels.
* `TypeInfo.plain_shape`: the shapes of types bring no references along, so that they are covered.
-/

namespace TypeGraph

open List (Forall₂)

/-- The relation passes from the parts to nodes, and to optional nodes. -/
structure Congruent (R : Node → Node → Prop) : Prop where
  parts : ∀ {node node' : Node}, node.kind ≠ .reference → node.head = node'.head →
    Forall₂ R node.children node'.children → R node node'
  optional : ∀ {node node' : Node}, R node node' → R node.optional node'.optional

/-- The entries have one name and related nodes. -/
def RelatedEntry (R : Node → Node → Prop) (entry entry' : String × Node) : Prop :=
  entry.1 = entry'.1 ∧ R entry.2 entry'.2

namespace Shape

/-- The nodes that a shape brings along mention nothing. -/
def Plain : Shape → Prop
  | leaf node => node.mentions = []
  | object (some (key, _)) _ _ => key.mentions = []
  | _ => True

variable {R : Node → Node → Prop} {nodes nodes' : List Node} (hR : Congruent R)

include hR

/-- A node without references is related to itself. -/
theorem related_self {node : Node} (h : node.mentions = []) : R node node := by
  -- induction on the node: its children have no references either
  induction node using Node.inductionOnChildren with
  | step node ih =>
    have hkind : node.kind ≠ .reference := by
      cases node with
      | reference identifier displayName => cases h
      | _ => simp [Node.kind]
    rw [Node.mentions_eq hkind, List.flatMap_eq_nil_iff] at h
    exact hR.parts hkind rfl (List.forall₂_same.mpr fun child hc => ih child hc (h child hc))

theorem related_slot (optional : Bool) {node node' : Node} (h : R node node') :
    R (slot optional node) (slot optional node') := by
  unfold slot
  split
  · exact hR.optional h
  · exact h

theorem related_slots {ι : Type} {items : List ι} (optionalOf : ι → Bool)
    (h : Forall₂ R nodes nodes') :
    Forall₂ R (items.zipWith (fun item node => slot (optionalOf item) node) nodes)
      (items.zipWith (fun item node => slot (optionalOf item) node) nodes') := by
  induction h generalizing items with
  | nil =>
    rw [List.zipWith_nil_right]
    exact .nil
  | cons hfirst _ ih =>
    cases items with
    | nil => exact .nil
    | cons item rest => exact .cons (related_slot hR _ hfirst) ih

theorem related_unionOrSingle (h : Forall₂ R nodes nodes') :
    Forall₂ R (Node.unionOrSingle? nodes).toList (Node.unionOrSingle? nodes').toList := by
  -- none and one are as they are; from two on there is a union
  rcases h with _ | ⟨hfirst, _ | ⟨hsecond, hrest⟩⟩
  · exact .nil
  · exact .cons hfirst .nil
  · refine .cons (hR.parts (by simp [Node.kind]) ?_ (.cons hfirst (.cons hsecond hrest))) .nil
    simp [Node.head, Node.mapChildren, hrest.length_eq]

theorem related_conjunction (h : Forall₂ R nodes nodes') :
    R (conjunction nodes) (conjunction nodes') := by
  -- none make an empty object, one stands alone, more are an intersection
  rcases h with _ | ⟨hfirst, _ | ⟨hsecond, hrest⟩⟩
  · exact hR.parts (by simp [conjunction, Node.kind]) rfl .nil
  · exact hfirst
  · refine hR.parts (by simp [conjunction, Node.kind]) ?_ (.cons hfirst (.cons hsecond hrest))
    simp [conjunction, Node.head, Node.mapChildren, hrest.length_eq]

omit hR in
theorem related_getElem? (h : Forall₂ R nodes nodes') (index : Nat) :
    Forall₂ R nodes[index]?.toList nodes'[index]?.toList := by
  induction h generalizing index with
  | nil => exact .nil
  | cons hfirst _ ih =>
    cases index with
    | zero => exact .cons hfirst .nil
    | succ index => exact ih index

theorem related_function {parameters parameters' : List Node} {returns returns' : Option Node}
    (hparameters : Forall₂ R parameters parameters')
    (hreturns : Forall₂ R returns.toList returns'.toList) :
    R (.function parameters returns) (.function parameters' returns') := by
  refine hR.parts (by simp [Node.kind]) ?_ (List.rel_append hparameters hreturns)
  cases returns <;> cases returns' <;>
    simp [Node.head, Node.mapChildren, hparameters.length_eq] at hreturns ⊢

theorem related_functions {signatures : List Signature} (h : Forall₂ R nodes nodes') :
    Forall₂ R (functions signatures nodes) (functions signatures nodes') := by
  -- each signature takes its parameters and what is returned from the front of the nodes
  induction signatures generalizing nodes nodes' with
  | nil => exact .nil
  | cons signature rest ih =>
    have hfirst := related_function hR (List.forall₂_take signature.parameters.length h)
      (related_getElem? h signature.parameters.length)
    exact .cons hfirst (ih (List.forall₂_drop _ h))

theorem related_indexRecords {index : Option (Node × TypeId)} {signatures : List Signature}
    {properties : List Property} (hplain : (object index signatures properties).Plain)
    (h : Forall₂ R nodes nodes') :
    Forall₂ R (indexRecords index nodes) (indexRecords index nodes') := by
  cases index with
  | none => exact .nil
  | some entry =>
    cases h with
    | nil => exact .nil
    | cons hfirst _ =>
      refine .cons (hR.parts (by simp [Node.kind]) rfl ?_) .nil
      exact .cons (related_self hR hplain) (.cons hfirst .nil)

/-! ### Properties -/

omit hR in
/-- The last of several properties with a name takes the place of the first, on both sides. -/
theorem related_insert {name : String} {node node' : Node} (hnode : R node node')
    {entries entries' : List (String × Node)} (h : Forall₂ (RelatedEntry R) entries entries') :
    Forall₂ (RelatedEntry R) (Entries.insert name node entries)
      (Entries.insert name node' entries') := by
  induction h with
  | nil => exact .cons ⟨rfl, hnode⟩ .nil
  | cons hfirst hrest ih =>
    unfold Entries.insert
    rw [hfirst.1]
    split
    · exact .cons ⟨rfl, hnode⟩ hrest
    · exact .cons ⟨rfl, hfirst.2⟩ ih

omit hR in
theorem related_ofList {entries entries' : List (String × Node)}
    (h : Forall₂ (RelatedEntry R) entries entries') :
    Forall₂ (RelatedEntry R) (Entries.ofList entries) (Entries.ofList entries') := by
  refine List.rel_foldl ?_ .nil h
  intro _ _ hentries entry entry' hentry
  show Forall₂ (RelatedEntry R) (Entries.insert entry.1 entry.2 _)
    (Entries.insert entry'.1 entry'.2 _)
  rw [hentry.1]
  exact related_insert hentry.2 hentries

theorem related_object {entries entries' : List (String × Node)}
    (h : Forall₂ (RelatedEntry R) entries entries') : R (.object entries) (.object entries') := by
  refine hR.parts (by simp [Node.kind]) ?_ ?_
  · refine congrArg Node.object ?_
    -- the heads agree because the names do
    induction h with
    | nil => rfl
    | cons hfirst _ ih => rw [List.map_cons, List.map_cons, hfirst.1, ih]
  · refine List.forall₂_map_left_iff.mpr (List.forall₂_map_right_iff.mpr ?_)
    exact h.imp fun _ _ hentry => hentry.2

theorem related_propertiesOf {properties : List Property} (h : Forall₂ R nodes nodes') :
    Forall₂ (RelatedEntry R) (propertiesOf properties nodes) (propertiesOf properties nodes') := by
  induction h generalizing properties with
  | nil =>
    rw [propertiesOf, List.zipWith_nil_right]
    exact .nil
  | cons hfirst _ ih =>
    cases properties with
    | nil => exact .nil
    | cons property rest => exact .cons ⟨rfl, related_slot hR _ hfirst⟩ ih

theorem related_propertyObjects {properties : List Property} (h : Forall₂ R nodes nodes') :
    Forall₂ R (propertyObjects properties nodes) (propertyObjects properties nodes') := by
  unfold propertyObjects
  split
  · exact .nil
  · exact .cons (related_object hR (related_ofList (related_propertiesOf hR h))) .nil

/-! ### All shapes -/

theorem related_parts {index : Option (Node × TypeId)} {signatures : List Signature}
    {properties : List Property} (hplain : (object index signatures properties).Plain)
    (h : Forall₂ R nodes nodes') :
    Forall₂ R (parts index signatures properties nodes)
      (parts index signatures properties nodes') := by
  simp only [parts, List.splitAt_eq]
  -- the nodes are split at the same positions on both sides
  have hothers := List.forall₂_drop (indexTypes index).length h
  refine List.rel_append (List.rel_append ?_ ?_) ?_
  · exact related_indexRecords hR hplain (List.forall₂_take _ h)
  · exact related_unionOrSingle hR (related_functions hR (List.forall₂_take _ hothers))
  · exact related_propertyObjects hR (List.forall₂_drop _ hothers)

/-- Related nodes make related levels. -/
theorem related_build {shape : Shape} (hplain : shape.Plain) (text : Option String)
    (h : Forall₂ R nodes nodes') : R (shape.build text nodes) (shape.build text nodes') := by
  -- with too few or too many nodes a level is unknown, on both sides
  have hunknown : R .unknown .unknown := hR.parts (by simp [Node.kind]) rfl .nil
  cases shape with
  | leaf node => exact related_self hR hplain
  | boolean => exact hR.parts (by simp [build, Node.kind]) rfl .nil
  | array element | set element =>
    rcases h with _ | ⟨hfirst, _ | ⟨-, -⟩⟩
    · exact hunknown
    · exact hR.parts (by simp [build, Node.kind]) rfl (.cons hfirst .nil)
    · exact hunknown
  | map key value | record key value =>
    rcases h with _ | ⟨hkey, _ | ⟨hvalue, _ | ⟨-, -⟩⟩⟩
    · exact hunknown
    · exact hunknown
    · exact hR.parts (by simp [build, Node.kind]) rfl (.cons hkey (.cons hvalue .nil))
    · exact hunknown
  | tuple first rest =>
    cases h with
    | nil => exact hunknown
    | cons hfirst hrest =>
      have hslots : Forall₂ R (rest.zipWith (fun element node => slot element.optional node) _)
          (rest.zipWith (fun element node => slot element.optional node) _) :=
        related_slots hR TupleElement.optional hrest
      refine hR.parts (by simp [build, Node.kind]) ?_ (.cons (related_slot hR _ hfirst) hslots)
      simp only [build, Node.head, Node.mapChildren, List.map_const', hslots.length_eq]
  | object index signatures properties => exact related_conjunction hR (related_parts hR hplain h)
  | union first rest | intersection first rest =>
    cases h with
    | nil => exact hunknown
    | cons hfirst hrest =>
      refine hR.parts (by simp [build, Node.kind]) ?_ (.cons hfirst hrest)
      simp [build, Node.head, Node.mapChildren, hrest.length_eq]
  | empty | unknown => exact hunknown

end Shape

/-! ## The shapes of types -/

namespace TypeInfo

theorem plain_ofBuiltin (builtin : Builtin) (arguments : List TypeId) :
    (Shape.ofBuiltin builtin arguments).Plain := by
  unfold Shape.ofBuiltin
  split
  case h_5 | h_6 => exact rfl
  all_goals exact trivial

theorem plain_structural (info : TypeInfo) : info.structural.Plain := by
  unfold structural
  split
  · split
    · exact trivial
    · exact trivial
    · unfold index?
      split
      · exact trivial
      all_goals exact rfl
  · split <;> exact trivial

/-- The shapes of types bring no references along. -/
theorem plain_shape (info : TypeInfo) : info.shape.Plain := by
  unfold shape recognised?
  -- literals and generic types stand for themselves, and what has a structure is read by it
  split
  · exact rfl
  · rename_i raw _ _
    cases raw with
    | string | number => exact rfl
    | bigint negative digits =>
      rw [Option.getD_some, Shape.ofLiteral]
      split
      · exact rfl
      · exact trivial
  · split
    · exact trivial
    · split
      · exact plain_ofBuiltin _ _
      · exact trivial
      · exact info.plain_structural

end TypeInfo

end TypeGraph
