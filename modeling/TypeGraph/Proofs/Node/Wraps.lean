import TypeGraph.Proofs.Lists
import TypeGraph.Proofs.Node.Normal

/-!
# Unions of one member

A union of one member says no more than the member. `Node.Wraps` is the relation between a node and
the same node with such unions around some of its parts: the node itself, parts of parts, any number
of them at once. It leaves what the node admits and mentions as it is, and what is left of an
optional node stays in the relation, so that emitters can be compared along it.

Main results:

* `Node.Wraps.induction`: related nodes are compared part by part.
* `Node.Wraps.isOptional_eq`, `Node.Wraps.mentions_eq`: unions of one member change neither.
* `Node.Wraps.withoutUndefined`: what is left of related nodes is related.
-/

namespace TypeGraph

namespace Node

/-! ## Nodes of one form -/

/-- Two nodes of one form, with related parts. Of what stands in properties and tuple slots `fits`
holds as well. -/
inductive Alike (R fits : Node → Node → Prop) : Node → Node → Prop where
  | primitive (kind : Primitive) : Alike R fits (primitive kind) (primitive kind)
  | literal (value : Literal) : Alike R fits (literal value) (literal value)
  | array {element element' : Node} (inside : R element element') :
      Alike R fits (array element) (array element')
  | set {element element' : Node} (inside : R element element') :
      Alike R fits (set element) (set element')
  | record {key key' value value' : Node} (keys : R key key') (values : R value value') :
      Alike R fits (record key value) (record key' value')
  | map {key key' value value' : Node} (keys : R key key') (values : R value value') :
      Alike R fits (map key value) (map key' value')
  | object {shape shape' : List (String × Node)} (names : shape.map Prod.fst = shape'.map Prod.fst)
      (parts : List.Forall₂ R (shape.map Prod.snd) (shape'.map Prod.snd))
      (slots : List.Forall₂ fits (shape.map Prod.snd) (shape'.map Prod.snd)) :
      Alike R fits (object shape) (object shape')
  | union {first first' : Node} {rest rest' : List Node} (head : R first first')
      (tail : List.Forall₂ R rest rest') : Alike R fits (union first rest) (union first' rest')
  | tuple {first first' : Node} {rest rest' : List Node} (head : R first first')
      (tail : List.Forall₂ R rest rest')
      (slots : List.Forall₂ fits (first :: rest) (first' :: rest')) :
      Alike R fits (tuple first rest) (tuple first' rest')
  | intersection {first first' : Node} {rest rest' : List Node} (head : R first first')
      (tail : List.Forall₂ R rest rest') :
      Alike R fits (intersection first rest) (intersection first' rest')
  | function {parameters parameters' : List Node} {returns returns' : Option Node}
      (arguments : List.Forall₂ R parameters parameters') (result : Option.Rel R returns returns') :
      Alike R fits (function parameters returns) (function parameters' returns')
  | reference (identifier : String) (displayName : Option String) :
      Alike R fits (reference identifier displayName) (reference identifier displayName)

namespace Alike

variable {R S fits : Node → Node → Prop} {node node' : Node}

theorem imp (h : Alike R fits node node')
    (hparts : ∀ part part', part' ∈ node'.children → R part part' → S part part') :
    Alike S fits node node' := by
  -- what is asked of the slots is kept as it is
  cases h with
  | primitive kind => exact .primitive kind
  | literal value => exact .literal value
  | array inside => exact .array (hparts _ _ List.mem_cons_self inside)
  | set inside => exact .set (hparts _ _ List.mem_cons_self inside)
  | record keys values =>
    exact .record (hparts _ _ (by simp [children]) keys) (hparts _ _ (by simp [children]) values)
  | map keys values =>
    exact .map (hparts _ _ (by simp [children]) keys) (hparts _ _ (by simp [children]) values)
  | object names parts slots => exact .object names (forall₂_imp_of_mem parts hparts) slots
  | union head tail =>
    exact .union (hparts _ _ List.mem_cons_self head)
      (forall₂_imp_of_mem tail fun _ _ hm => hparts _ _ (List.mem_cons_of_mem _ hm))
  | tuple head tail slots =>
    exact .tuple (hparts _ _ List.mem_cons_self head)
      (forall₂_imp_of_mem tail fun _ _ hm => hparts _ _ (List.mem_cons_of_mem _ hm)) slots
  | intersection head tail =>
    exact .intersection (hparts _ _ List.mem_cons_self head)
      (forall₂_imp_of_mem tail fun _ _ hm => hparts _ _ (List.mem_cons_of_mem _ hm))
  | function arguments result =>
    refine .function
      (forall₂_imp_of_mem arguments fun _ _ hm => hparts _ _ (List.mem_append_left _ hm)) ?_
    cases result with
    | none => exact .none
    | some result => exact .some (hparts _ _ (List.mem_append_right _ List.mem_cons_self) result)
  | reference identifier displayName => exact .reference identifier displayName

/-- A node is alike itself, part by part. -/
theorem of_children (hfits : ∀ part, fits part part) (h : ∀ part ∈ node.children, R part part) :
    Alike R fits node node := by
  have hslots : ∀ parts : List Node, List.Forall₂ fits parts parts :=
    fun parts => List.forall₂_same.mpr fun part _ => hfits part
  cases node with
  | primitive kind => exact .primitive kind
  | literal value => exact .literal value
  | array element => exact .array (h element List.mem_cons_self)
  | set element => exact .set (h element List.mem_cons_self)
  | record key value => exact .record (h key (by simp [children])) (h value (by simp [children]))
  | map key value => exact .map (h key (by simp [children])) (h value (by simp [children]))
  | object shape => exact .object rfl (List.forall₂_same.mpr h) (hslots _)
  | union first rest =>
    exact .union (h first List.mem_cons_self)
      (List.forall₂_same.mpr fun part hp => h part (List.mem_cons_of_mem _ hp))
  | tuple first rest =>
    exact .tuple (h first List.mem_cons_self)
      (List.forall₂_same.mpr fun part hp => h part (List.mem_cons_of_mem _ hp)) (hslots _)
  | intersection first rest =>
    exact .intersection (h first List.mem_cons_self)
      (List.forall₂_same.mpr fun part hp => h part (List.mem_cons_of_mem _ hp))
  | function parameters returns =>
    refine .function (List.forall₂_same.mpr fun part hp => h part (List.mem_append_left _ hp)) ?_
    cases returns with
    | none => exact .none
    | some result => exact .some (h result (List.mem_append_right _ List.mem_cons_self))
  | reference identifier displayName => exact .reference identifier displayName

theorem children (h : Alike R fits node node') : List.Forall₂ R node.children node'.children := by
  cases h with
  | primitive | literal | reference => exact .nil
  | array inside | set inside => exact .cons inside .nil
  | record keys values | map keys values => exact .cons keys (.cons values .nil)
  | object _ parts => exact parts
  | union head tail | tuple head tail | intersection head tail => exact .cons head tail
  | function arguments result =>
    cases result with
    | none => exact List.rel_append arguments .nil
    | some result => exact List.rel_append arguments (.cons result .nil)

theorem mentions_eq (h : Alike (fun part part' => part'.mentions = part.mentions) fits node node') :
    node'.mentions = node.mentions := by
  have hchildren : node'.children.flatMap mentions = node.children.flatMap mentions := by
    rw [List.flatMap_def, List.flatMap_def, map_eq_of_forall₂ h.children]
  cases h with
  | primitive | literal | reference => rfl
  | _ =>
    rw [Node.mentions_eq Kind.noConfusion, Node.mentions_eq Kind.noConfusion]
    exact hchildren

end Alike

/-! ## Unions of one member -/

/-- The second node is the first with unions of one member around some of its parts. Of the nodes
that stand in properties and tuple slots `fits` holds as well, with what stands there before and
after. -/
inductive Wraps (fits : Node → Node → Prop) : Node → Node → Prop where
  | around {node node' : Node} (inside : Wraps fits node node') : Wraps fits node (union node' [])
  | alike {node node' : Node} (parts : Alike (Wraps fits) fits node node') : Wraps fits node node'

namespace Wraps

variable {fits : Node → Node → Prop} {node node' : Node} {nodes nodes' : List Node}

/-- Related nodes are compared part by part, where all that is smaller has been compared. -/
theorem induction {motive : Node → Node → Prop}
    (around : ∀ node node', motive node node' → motive node (union node' []))
    (alike : ∀ node node', Alike (Wraps fits) fits node node' → Alike motive fits node node' →
      (∀ content content', sizeOf content' < sizeOf node' → Wraps fits content content' →
        motive content content') → motive node node')
    {node node' : Node} (h : Wraps fits node node') : motive node node' := by
  have hsmaller : ∀ part part', sizeOf part' < sizeOf node' → Wraps fits part part' →
      motive part part' := fun _ _ _ hpart => induction around alike hpart
  -- each step of the relation makes the second node larger, the first may stay as it is
  cases h with
  | @around _ inner inside =>
    refine around node inner (hsmaller node inner ?_ inside)
    rw [union.sizeOf_spec]
    omega
  | alike parts =>
    refine alike node node' parts (parts.imp fun part part' hm hpart => ?_) hsmaller
    exact hsmaller part part' (sizeOf_lt_of_mem_children hm) hpart
  termination_by sizeOf node'

/-- Slots are compared by what stands in them and by what is left of it. -/
theorem slots_of_smaller {motive slotMotive : Node → Node → Prop} {size : Nat}
    (related : List.Forall₂ (Wraps fits) nodes nodes') (slots : List.Forall₂ fits nodes nodes')
    (hsize : ∀ part ∈ nodes', sizeOf part < size)
    (hsmaller : ∀ part part', sizeOf part' < size → Wraps fits part part' → motive part part')
    (hslot : ∀ node node', Wraps fits node node' → fits node node' →
      (∀ part part', sizeOf part' ≤ sizeOf node' → Wraps fits part part' → motive part part') →
      slotMotive node node') : List.Forall₂ slotMotive nodes nodes' := by
  have hboth :
      List.Forall₂ (fun node node' => Wraps fits node node' ∧ fits node node') nodes nodes' :=
    related.mp (fun _ _ hw hf => ⟨hw, hf⟩) slots
  refine forall₂_imp_of_mem hboth ?_
  rintro node node' hm ⟨hw, hf⟩
  refine hslot node node' hw hf fun part part' hle => hsmaller part part' ?_
  exact Nat.lt_of_le_of_lt hle (hsize node' hm)

/-- No union at all is a case of it. -/
theorem refl (hfits : ∀ part, fits part part) (node : Node) : Wraps fits node node := by
  induction node using inductionOnChildren with
  | step node ih => exact .alike (.of_children hfits ih)

theorem mentions_eq (h : Wraps fits node node') : node'.mentions = node.mentions := by
  refine h.induction (motive := fun node node' => node'.mentions = node.mentions) ?_ ?_
  · intro node node' ih
    rw [mentions, mentionsInAll, List.append_nil, ih]
  · exact fun node node' _ hparts _ => hparts.mentions_eq

/-! ## Optional nodes -/

theorem isOptional_eq (h : Wraps fits node node') : node'.isOptional = node.isOptional := by
  refine h.induction (motive := fun node node' => node'.isOptional = node.isOptional) ?_ ?_
  · intro node node' ih
    rw [isOptional, anyOptional, Bool.or_false, ih]
  · intro node node' _ hparts _
    cases hparts with
    | @union first first' rest rest' head tail =>
      have hmembers : (first' :: rest').map isOptional = (first :: rest).map isOptional :=
        map_eq_of_forall₂ (.cons head tail)
      have hany (nodes : List Node) : nodes.any isOptional = (nodes.map isOptional).any id := by
        rw [List.any_map, Function.id_comp]
      rw [isOptional_union, isOptional_union, hany, hany, hmembers]
    | _ => rfl

theorem unionOrSingle? (h : List.Forall₂ (Wraps fits) nodes nodes') :
    Option.Rel (Wraps fits) (Node.unionOrSingle? nodes) (Node.unionOrSingle? nodes') := by
  cases h with
  | nil => exact .none
  | cons head tail =>
    cases tail with
    | nil => exact .some head
    | cons second tail => exact .some (.alike (.union head (.cons second tail)))

theorem allWithoutUndefined
    (h : List.Forall₂ (fun node node' =>
      Option.Rel (Wraps fits) node.withoutUndefined node'.withoutUndefined) nodes nodes') :
    List.Forall₂ (Wraps fits) (Node.allWithoutUndefined nodes)
      (Node.allWithoutUndefined nodes') := by
  induction h with
  | nil => exact .nil
  | @cons node node' rest rest' head _ ih =>
    rw [Node.allWithoutUndefined, Node.allWithoutUndefined]
    generalize node.withoutUndefined = kept, node'.withoutUndefined = kept' at head ⊢
    cases head with
    | none => exact ih
    | some hkept => exact .cons hkept ih

/-- One member in a union is left as it is left alone. -/
theorem withoutUndefined_single {node : Node} (h : node.isOptional = true) :
    (Node.union node []).withoutUndefined = node.withoutUndefined := by
  rw [Node.withoutUndefined, h, Bool.true_or, if_pos rfl, Node.allWithoutUndefined, List.append_nil]
  cases node.withoutUndefined <;> rfl

/-- What is left of related nodes is related. -/
theorem withoutUndefined (h : Wraps fits node node') :
    Option.Rel (Wraps fits) node.withoutUndefined node'.withoutUndefined := by
  refine h.induction (motive := fun node node' =>
    Option.Rel (Wraps fits) node.withoutUndefined node'.withoutUndefined) ?_ ?_
  · intro node node' ih
    cases hoptional : node'.isOptional with
    | true => rwa [withoutUndefined_single hoptional]
    | false =>
      -- a required node is left as it is, with its union
      have hunion : (Node.union node' []).isOptional = false := by
        rw [isOptional, anyOptional, Bool.or_false, hoptional]
      rw [withoutUndefined_of_required hoptional] at ih
      rw [withoutUndefined_of_required hunion]
      generalize node.withoutUndefined = kept at ih ⊢
      cases ih with
      | some hkept => exact .some (.around hkept)
  · intro node node' hrelated hparts _
    have hoptional := (Wraps.alike hrelated).isOptional_eq
    cases hnode : node.isOptional with
    | false =>
      rw [withoutUndefined_of_required hnode,
        withoutUndefined_of_required (hoptional.trans hnode)]
      exact .some (.alike hrelated)
    | true =>
      have hnode' := hoptional.trans hnode
      -- only unions and `undefined` itself are optional
      cases hparts with
      | union head tail =>
        rw [isOptional] at hnode hnode'
        rw [Node.withoutUndefined, Node.withoutUndefined, if_pos hnode, if_pos hnode']
        exact unionOrSingle? (allWithoutUndefined (.cons head tail))
      | primitive kind => cases kind <;> first | exact .none | cases hnode
      | _ => cases hnode

/-- A place reads related nodes in one way, and what fills it is related. -/
theorem presence_cases (h : Wraps fits node node') :
    (node.presence = .required ∧ node'.presence = .required) ∨
      (node.presence = .vacant ∧ node'.presence = .vacant) ∨
      ∃ content smaller content' smaller', node.presence = .optional content smaller ∧
        node'.presence = .optional content' smaller' ∧ Wraps fits content content' := by
  -- of the nine pairs, those that differ in being optional or in what is left cannot be
  have hoptional := h.isOptional_eq
  have hkept := h.withoutUndefined
  rcases node.presence_cases with ⟨ho, hp⟩ | ⟨ho, hc, hp⟩ | ⟨content, smaller, ho, hc, hp⟩ <;>
    rcases node'.presence_cases with
        ⟨ho', hp'⟩ | ⟨ho', hc', hp'⟩ | ⟨content', smaller', ho', hc', hp'⟩ <;>
    simp only [ho, ho', Bool.true_eq_false, Bool.false_eq_true] at hoptional
  · exact .inl ⟨hp, hp'⟩
  · exact .inr (.inl ⟨hp, hp'⟩)
  · rw [hc, hc'] at hkept
    cases hkept
  · rw [hc, hc'] at hkept
    cases hkept
  · rw [hc, hc'] at hkept
    cases hkept with
    | some hcontent => exact .inr (.inr ⟨content, smaller, content', smaller', hp, hp', hcontent⟩)

end Wraps

end Node

end TypeGraph
