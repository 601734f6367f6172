import TypeGraph.Proofs.Definition.Dependencies
import TypeGraph.Proofs.Emission.Passes
import TypeGraph.Proofs.Entries
import TypeGraph.Proofs.Node.Wraps
import TypeGraph.SchemaGraph.OfNode
import TypeGraph.TypeExpr.Printer
import TypeGraph.Validator.Module

/-!
# Emission and unions of one member

Every emitter writes a union of one member as the member. What stands in a property or a slot is
read before it is written, for whether the place may be left empty, and there TypeBox looks for a
union: it marks a property of `undefined` in a union as optional, and a property that is `undefined`
itself not, and refuses the former as an element of a tuple. Nothing else that is written differs.

Main results:

* `emission_eq_of_wraps`: the emitters write nodes and modules with such unions as without them.
* `Validator.TypeBox.ofProperty_single_iff`: a property in a union of its own is written as the
  property exactly if it is not `undefined`.
-/

namespace TypeGraph

/-- The second definitions are the first with unions of one member around parts of their bodies. -/
def DefinitionMap.Wraps (fits : Node → Node → Prop) (definitions definitions' : DefinitionMap) :
    Prop :=
  List.Forall₂ (fun entry entry' => entry.1 = entry'.1 ∧ entry.2.label = entry'.2.label ∧
    Node.Wraps fits entry.2.node entry'.2.node) definitions.entries definitions'.entries

/-! ## Definitions -/

namespace DefinitionMap

variable {fits : Node → Node → Prop} {definitions definitions' : DefinitionMap}

theorem Wraps.keys_eq (h : definitions.Wraps fits definitions') :
    definitions'.keys = definitions.keys := by
  have hkeys :
      List.Forall₂ Eq (definitions.entries.map Prod.fst) (definitions'.entries.map Prod.fst) :=
    List.forall₂_map_left_iff.mpr (List.forall₂_map_right_iff.mpr (h.imp fun _ _ he => he.1))
  exact (List.forall₂_eq_eq_eq ▸ hkeys).symm

theorem Wraps.size_eq (h : definitions.Wraps fits definitions') :
    definitions'.size = definitions.size := h.length_eq.symm

theorem Wraps.contains_eq (h : definitions.Wraps fits definitions') (identifier : String) :
    definitions'.contains identifier = definitions.contains identifier := by
  rw [Bool.eq_iff_iff, OrderedMap.contains_iff, OrderedMap.contains_iff, h.keys_eq]

theorem Wraps.node? (h : definitions.Wraps fits definitions') (identifier : String) :
    Option.Rel (Node.Wraps fits) (definitions.node? identifier)
      (definitions'.node? identifier) := by
  have hentries : List.Forall₂ (fun entry entry' => entry.1 = entry'.1 ∧
      Node.Wraps fits entry.2.node entry'.2.node) definitions.entries definitions'.entries :=
    h.imp fun _ _ he => ⟨he.1, he.2.2⟩
  -- the keys are the same, so either both are there or neither
  cases hd : definitions.get? identifier with
  | some definition =>
    obtain ⟨definition', hd', hbody⟩ := Entries.exists_get?_of_forall₂
      (R := fun (d d' : Definition) => Node.Wraps fits d.node d'.node) hentries hd
    have hd' : definitions'.get? identifier = some definition' := hd'
    rw [DefinitionMap.node?, DefinitionMap.node?, hd, hd']
    exact .some hbody
  | none =>
    have hd' : definitions'.get? identifier = none := by
      rw [OrderedMap.get?_eq_none_iff, h.keys_eq, ← OrderedMap.get?_eq_none_iff]
      exact hd
    rw [DefinitionMap.node?, DefinitionMap.node?, hd, hd']
    exact .none

theorem Wraps.referencesOf_eq (h : definitions.Wraps fits definitions') (identifier : String) :
    definitions'.referencesOf identifier = definitions.referencesOf identifier := by
  have hbodies := h.node? identifier
  rw [referencesOf, referencesOf]
  generalize definitions.node? identifier = body, definitions'.node? identifier = body' at hbodies ⊢
  cases hbodies with
  | none => rfl
  | some hbody => exact congrArg List.eraseDups hbody.mentions_eq

/-- The walk goes by the references of the definitions only. -/
theorem visitAll_congr
    (h : ∀ identifier, definitions'.referencesOf identifier = definitions.referencesOf identifier)
    (unseen : List String) (visits : List Visit) :
    definitions'.visitAll unseen visits = definitions.visitAll unseen visits := by
  -- along the walk of the first definitions, as the second take the same branches
  induction unseen, visits using visitAll.induct definitions with
  | case1 => rw [visitAll, visitAll]
  | case2 unseen identifier rest ih => rw [visitAll, visitAll, ih]
  | case3 unseen identifier rest hunseen _ ih =>
    rw [visitAll, visitAll, dif_pos hunseen, dif_pos hunseen, h, ih]
  | case4 unseen identifier rest hseen ih =>
    rw [visitAll, visitAll, dif_neg hseen, dif_neg hseen, ih]

theorem Wraps.dependencyOrder_eq (h : definitions.Wraps fits definitions') :
    definitions'.dependencyOrder = definitions.dependencyOrder := by
  rw [dependencyOrder, dependencyOrder, h.keys_eq, visitAll_congr h.referencesOf_eq]

end DefinitionMap

/-! ## Nodes -/

/-- The second function makes of the second node what the first makes of the first. -/
abbrev Node.Agree {α : Type} (f f' : Node → α) (node node' : Node) : Prop := f' node' = f node

section

variable {fits : Node → Node → Prop} {definitions definitions' : DefinitionMap}
  {nodes nodes' : List Node} {shape shape' : List (String × Node)} {node node' : Node}

/-! ### Zod -/

namespace Validator.Zod

theorem ofNode_eq_of_wraps
    (hcontains : ∀ identifier, definitions'.contains identifier = definitions.contains identifier)
    (h : node.Wraps fits node') : ofNode definitions' node' = ofNode definitions node := by
  refine h.induction (motive := Node.Agree (ofNode definitions) (ofNode definitions')) ?_ ?_
  · intro node node' ih
    rw [Node.Agree, ofNode]
    exact ih
  · intro node node' hrelated hparts hsmaller
    rw [Node.Agree]
    cases hparts with
    | primitive | literal => rw [ofNode, ofNode]
    | array inside | set inside => rw [ofNode, ofNode, inside]
    | record keys values | map keys values => rw [ofNode, ofNode, keys, values]
    | object names parts =>
      rw [ofNode, ofNode, ofShape_eq_mapM, ofShape_eq_mapM, mapM_values_eq_of_forall₂ names parts]
    | union head tail =>
      cases tail with
      | nil => rw [ofNode, ofNode, head]
      | cons second tail =>
        -- what is left of the union without `undefined` is no part of it, but smaller
        rw [ofNode_union, ofNode_union, ofAll_eq_mapM, ofAll_eq_mapM,
          mapM_eq_of_forall₂ (List.Forall₂.cons second tail), head]
        rcases (Node.Wraps.alike hrelated).presence_cases with
          ⟨hp, hp'⟩ | ⟨hp, hp'⟩ | ⟨content, smaller, content', smaller', hp, hp', hcontent⟩
        · simp only [hp, hp']
        · simp only [hp, hp']
        · have hkept : ofNode definitions' content' = ofNode definitions content :=
            hsmaller content content' smaller' hcontent
          simp only [hp, hp', hkept]
    | tuple head tail | intersection head tail =>
      rw [ofNode, ofNode, head, ofAll_eq_mapM, ofAll_eq_mapM, mapM_eq_of_forall₂ tail]
    | function arguments result =>
      rw [ofNode, ofNode, ofAll_eq_mapM, ofAll_eq_mapM, mapM_eq_of_forall₂ arguments]
      cases result with
      | none => rw [ofOption, ofOption]
      | some result => rw [ofOption, ofOption, result]
    | reference identifier displayName => rw [ofNode, ofNode, hcontains]

end Validator.Zod

/-! ### TypeBox -/

namespace Validator.TypeBox

theorem isOptionalUnion_eq_isOptional (h : node ≠ .undefined) :
    isOptionalUnion node = node.isOptional := by
  cases node with
  | primitive kind =>
    cases kind with
    | undefined => exact absurd rfl h
    | _ => rfl
  | _ => rfl

/-- Where `undefined` itself stands in a property or a slot, there is no union around it. -/
abbrev Fits (node node' : Node) : Prop := node = .undefined → node' = .undefined

theorem isOptionalUnion_eq_of_wraps (h : node.Wraps fits node') (hfit : Fits node node') :
    isOptionalUnion node' = isOptionalUnion node := by
  by_cases hnode : node = .undefined
  · rw [hfit hnode, hnode]
  · rw [isOptionalUnion_eq_isOptional hnode, ← h.isOptional_eq]
    refine isOptionalUnion_eq_isOptional ?_
    -- unions of one member do not make `undefined`
    rintro rfl
    cases h with
    | alike parts =>
      cases parts
      exact hnode rfl

theorem ofProperty_eq_of_parts (h : node.Wraps fits node') (hfit : Fits node node')
    (hparts : ∀ part part', sizeOf part' ≤ sizeOf node' → part.Wraps fits part' →
      ofNode definitions' part' = ofNode definitions part) :
    ofProperty definitions' node' = ofProperty definitions node := by
  -- a property is written as it stands, or as what is left of it
  rw [ofProperty, ofProperty, isOptionalUnion_eq_of_wraps h hfit,
    hparts node node' (Nat.le_refl _) h]
  rcases h.presence_cases with
    ⟨hp, hp'⟩ | ⟨hp, hp'⟩ | ⟨content, smaller, content', smaller', hp, hp', hcontent⟩
  · cases isOptionalUnion node <;> simp only [hp, hp']
  · cases isOptionalUnion node <;> simp only [hp, hp']
  · have hkept := hparts content content' (Nat.le_of_lt smaller') hcontent
    cases isOptionalUnion node <;> simp only [hp, hp', hkept]

theorem ofNode_eq_of_wraps
    (hcontains : ∀ identifier, definitions'.contains identifier = definitions.contains identifier)
    (hfits : ∀ part part', fits part part' → Fits part part') (h : node.Wraps fits node') :
    ofNode definitions' node' = ofNode definitions node := by
  refine h.induction (motive := Node.Agree (ofNode definitions) (ofNode definitions')) ?_ ?_
  · intro node node' ih
    rw [Node.Agree, ofNode]
    exact ih
  · intro node node' hrelated hparts hsmaller
    rw [Node.Agree]
    cases hparts with
    | primitive | literal => rw [ofNode, ofNode]
    | set | map => rw [ofNode, ofNode]
    | array inside => rw [ofNode, ofNode, inside]
    | record keys values => rw [ofNode, ofNode, keys, values]
    | @object shape shape' names _ slots =>
      have hsize : ∀ part ∈ shape'.map Prod.snd, sizeOf part < sizeOf (Node.object shape') :=
        fun _ hm => Node.sizeOf_lt_of_mem_children hm
      have hproperties : List.Forall₂
          (Node.Agree (ofProperty definitions) (ofProperty definitions'))
          (shape.map Prod.snd) (shape'.map Prod.snd) :=
        Node.Wraps.slots_of_smaller hrelated.children slots hsize hsmaller
          fun node node' hw hf => ofProperty_eq_of_parts hw (hfits node node' hf)
      rw [ofNode, ofNode, ofShape_eq_mapM, ofShape_eq_mapM,
        mapM_values_eq_of_forall₂ names hproperties]
    | union head tail =>
      cases tail with
      | nil => rw [ofNode, ofNode, head]
      | cons second tail =>
        rw [ofNode_union, ofNode_union, ofAll_eq_mapM, ofAll_eq_mapM,
          mapM_eq_of_forall₂ (List.Forall₂.cons second tail), head]
    | @tuple first first' rest rest' head tail slots =>
      -- a tuple is refused for its slots before any of them is written
      have hoptional :
          (first' :: rest').map isOptionalUnion = (first :: rest).map isOptionalUnion :=
        map_eq_of_forall₂ (hrelated.children.mp
          (fun part part' hw hf => isOptionalUnion_eq_of_wraps hw (hfits part part' hf)) slots)
      have hany (nodes : List Node) :
          nodes.any isOptionalUnion = (nodes.map isOptionalUnion).any id := by
        rw [List.any_map, Function.id_comp]
      rw [ofNode, ofNode, hany, hany, hoptional, head, ofAll_eq_mapM, ofAll_eq_mapM,
        mapM_eq_of_forall₂ tail]
    | intersection head tail =>
      rw [ofNode, ofNode, head, ofAll_eq_mapM, ofAll_eq_mapM, mapM_eq_of_forall₂ tail]
    | function arguments result =>
      rw [ofNode, ofNode, ofAll_eq_mapM, ofAll_eq_mapM, mapM_eq_of_forall₂ arguments]
      cases result with
      | none => rw [ofReturns, ofReturns]
      | some result => rw [ofReturns, ofReturns, result]
    | reference identifier displayName => rw [ofNode, ofNode, hcontains]

end Validator.TypeBox

/-! ### TypeScript -/

namespace TypeExpr

theorem ofSlot_eq_of_parts (h : node.Wraps fits node')
    (hparts : ∀ part part', sizeOf part' ≤ sizeOf node' → part.Wraps fits part' →
      ofNode definitions' part' = ofNode definitions part) :
    ofSlot definitions' node' = ofSlot definitions node := by
  rw [ofSlot, ofSlot, hparts node node' (Nat.le_refl _) h]
  rcases h.presence_cases with
    ⟨hp, hp'⟩ | ⟨hp, hp'⟩ | ⟨content, smaller, content', smaller', hp, hp', hcontent⟩
  · simp only [hp, hp']
  · simp only [hp, hp']
  · have hkept := hparts content content' (Nat.le_of_lt smaller') hcontent
    simp only [hp, hp', hkept]

theorem ofNode_eq_of_wraps
    (hcontains : ∀ identifier, definitions'.contains identifier = definitions.contains identifier)
    (h : node.Wraps fits node') : ofNode definitions' node' = ofNode definitions node := by
  refine h.induction (motive := Node.Agree (ofNode definitions) (ofNode definitions')) ?_ ?_
  · intro node node' ih
    rw [Node.Agree, ofNode]
    exact ih
  · intro node node' hrelated hparts hsmaller
    have hslots (hslots : List.Forall₂ fits node.children node'.children) :
        List.Forall₂ (Node.Agree (ofSlot definitions) (ofSlot definitions')) node.children
          node'.children :=
      Node.Wraps.slots_of_smaller hrelated.children hslots
        (fun _ hm => Node.sizeOf_lt_of_mem_children hm) hsmaller
        fun _ _ hw _ => ofSlot_eq_of_parts hw
    rw [Node.Agree]
    cases hparts with
    | primitive | literal => rw [ofNode, ofNode]
    | array inside | set inside => rw [ofNode, ofNode, inside]
    | record keys values | map keys values => rw [ofNode, ofNode, keys, values]
    | object names _ slots =>
      rw [ofNode, ofNode, ofShape_eq_mapM, ofShape_eq_mapM,
        mapM_values_eq_of_forall₂ names (hslots slots)]
    | union head tail =>
      cases tail with
      | nil => rw [ofNode, ofNode, head]
      | cons second tail =>
        rw [ofNode_union, ofNode_union, ofAll_eq_mapM, ofAll_eq_mapM,
          mapM_eq_of_forall₂ (List.Forall₂.cons second tail), head]
    | tuple _ _ slots =>
      obtain ⟨head, tail⟩ := List.forall₂_cons.mp (hslots slots)
      rw [ofNode, ofNode, head, ofSlots_eq_mapM, ofSlots_eq_mapM, mapM_eq_of_forall₂ tail]
    | intersection head tail =>
      rw [ofNode, ofNode, head, ofAll_eq_mapM, ofAll_eq_mapM, mapM_eq_of_forall₂ tail]
    | function arguments result =>
      rw [ofNode, ofNode, ofAll_eq_mapM, ofAll_eq_mapM, mapM_eq_of_forall₂ arguments]
      cases result with
      | none => rw [ofReturns, ofReturns]
      | some result => rw [ofReturns, ofReturns, result]
    | reference identifier displayName => rw [ofNode, ofNode, hcontains]

end TypeExpr

/-! ### Schemas -/

namespace SchemaDraft

variable {depth : Nat}

theorem buildWithin_union (first second : Node) (rest : List Node) :
    buildWithin definitions depth (.union first (second :: rest)) =
      match (Node.union first (second :: rest)).presence with
      | .optional content _ => (do add (.optional (← buildWithin definitions depth content)))
      | .vacant => add (.primitive .undefined)
      | .required => (do
        let first ← buildWithin definitions depth first
        add (.union (first :: (← buildAll definitions depth (second :: rest))))) := by
  rw [buildWithin]
  · cases (Node.union first (second :: rest)).presence <;> rfl
  · exact List.cons_ne_nil _ _

theorem buildAll_congr
    (h : List.Forall₂ (Node.Agree (buildWithin definitions depth) (buildWithin definitions' depth))
      nodes nodes') : buildAll definitions' depth nodes' = buildAll definitions depth nodes := by
  induction h with
  | nil => rw [buildAll, buildAll]
  | cons head _ ih => rw [buildAll, buildAll, head, ih]

theorem buildShape_congr (names : shape.map Prod.fst = shape'.map Prod.fst)
    (parts : List.Forall₂ (Node.Agree (buildWithin definitions depth)
      (buildWithin definitions' depth)) (shape.map Prod.snd) (shape'.map Prod.snd)) :
    buildShape definitions' depth shape' = buildShape definitions depth shape := by
  induction shape generalizing shape' with
  | nil =>
    obtain rfl := List.map_eq_nil_iff.mp names.symm
    rw [buildShape, buildShape]
  | cons property rest ih =>
    cases shape' with
    | nil => cases names
    | cons property' rest' =>
      have hname : property.1 = property'.1 := (List.cons.inj names).1
      obtain ⟨head, tail⟩ := List.forall₂_cons.mp parts
      rw [buildShape, buildShape, head, ih (List.cons.inj names).2 tail, hname]

/-- Where references are built alike, so are related nodes. -/
theorem buildWithin_eq_of_references
    (hreference : ∀ identifier displayName,
      buildWithin definitions' depth (.reference identifier displayName) =
        buildWithin definitions depth (.reference identifier displayName))
    (h : node.Wraps fits node') :
    buildWithin definitions' depth node' = buildWithin definitions depth node := by
  refine h.induction
    (motive := Node.Agree (buildWithin definitions depth) (buildWithin definitions' depth)) ?_ ?_
  · -- a union around a node is built as the node
    intro node node' ih
    rw [Node.Agree, buildWithin]
    exact ih
  · intro node node' hrelated hparts hsmaller
    rw [Node.Agree]
    cases hparts with
    | primitive | literal => rw [buildWithin, buildWithin]
    | array inside | set inside => rw [buildWithin, buildWithin, inside]
    | record keys values | map keys values => rw [buildWithin, buildWithin, keys, values]
    | object names parts => rw [buildWithin, buildWithin, buildShape_congr names parts]
    | union head tail =>
      cases tail with
      | nil => rw [buildWithin, buildWithin, head]
      | cons second tail =>
        rw [buildWithin_union, buildWithin_union, buildAll_congr (.cons second tail), head]
        -- the unions are in the same of the three cases, and what is left of them is smaller
        rcases (Node.Wraps.alike hrelated).presence_cases with
          ⟨hp, hp'⟩ | ⟨hp, hp'⟩ | ⟨content, smaller, content', smaller', hp, hp', hcontent⟩
        · simp only [hp, hp']
        · simp only [hp, hp']
        · have hkept :
              buildWithin definitions' depth content' = buildWithin definitions depth content :=
            hsmaller content content' smaller' hcontent
          simp only [hp, hp', hkept]
    | tuple head tail | intersection head tail =>
      rw [buildWithin, buildWithin, head, buildAll_congr tail]
    | function arguments result =>
      rw [buildWithin, buildWithin, buildAll_congr arguments]
      cases result with
      | none => rw [buildOption, buildOption]
      | some result => rw [buildOption, buildOption, result]
    | reference identifier displayName => exact hreference identifier displayName

theorem buildWithin_eq_of_wraps (hdefinitions : definitions.Wraps fits definitions') (depth : Nat)
    (h : node.Wraps fits node') :
    buildWithin definitions' depth node' = buildWithin definitions depth node := by
  -- a body is built with one level less
  induction depth generalizing node node' with
  | zero =>
    refine buildWithin_eq_of_references ?_ h
    intro identifier displayName
    rw [buildWithin, buildWithin]
    refine bind_congr fun draft => ?_
    have hbodies := hdefinitions.node? identifier
    generalize definitions.node? identifier = body, definitions'.node? identifier =
      body' at hbodies ⊢
    cases draft.handles.get? identifier with
    | some handle => rfl
    | none => cases hbodies <;> rfl
  | succ depth ih =>
    refine buildWithin_eq_of_references ?_ h
    intro identifier displayName
    rw [buildWithin, buildWithin]
    refine bind_congr fun draft => ?_
    have hbodies := hdefinitions.node? identifier
    generalize definitions.node? identifier = body, definitions'.node? identifier =
      body' at hbodies ⊢
    cases draft.handles.get? identifier with
    | some handle => rfl
    | none =>
      cases hbodies with
      | none => rfl
      | some hbody => simp only [ih hbody]

end SchemaDraft

/-- The graph of related nodes is one, with one root. -/
theorem SchemaGraph.ofNode_eq_of_wraps (hdefinitions : definitions.Wraps fits definitions')
    (h : node.Wraps fits node') : ofNode definitions' node' = ofNode definitions node := by
  unfold ofNode SchemaDraft.build
  rw [hdefinitions.size_eq, SchemaDraft.buildWithin_eq_of_wraps hdefinitions _ h]

/-! ## Modules -/

namespace Validator

variable {dialect : Dialect}

/-- What TypeBox asks of the places that it reads before it writes them; Zod asks nothing. -/
def Admits (fits : Node → Node → Prop) : Dialect → Prop
  | .zod => True
  | .typeBox => ∀ part part', fits part part' → TypeBox.Fits part part'

theorem expression_eq_of_wraps (hadmits : Admits fits dialect)
    (hcontains : ∀ identifier, definitions'.contains identifier = definitions.contains identifier)
    (h : node.Wraps fits node') :
    expression dialect definitions' node' = expression dialect definitions node := by
  cases dialect with
  | zod => exact Zod.ofNode_eq_of_wraps hcontains h
  | typeBox => exact TypeBox.ofNode_eq_of_wraps hcontains hadmits h

theorem emitModule_eq_of_wraps (hadmits : Admits fits dialect)
    (hdefinitions : definitions.Wraps fits definitions') (h : node.Wraps fits node')
    (exported : Bool) (rootName : String) :
    emitModule dialect exported definitions' node' rootName =
      emitModule dialect exported definitions node rootName := by
  have hdefinition : definitionOf dialect exported definitions' =
      definitionOf dialect exported definitions := by
    funext identifier
    have hbodies := hdefinitions.node? identifier
    unfold definitionOf
    generalize definitions.node? identifier = body, definitions'.node? identifier =
      body' at hbodies ⊢
    cases hbodies with
    | none => rfl
    | some hbody => simp only [expression_eq_of_wraps hadmits hdefinitions.contains_eq hbody]
  rw [emitModule, emitModule, moduleLines, moduleLines, hdefinition,
    hdefinitions.dependencyOrder_eq, expression_eq_of_wraps hadmits hdefinitions.contains_eq h]

end Validator

namespace TypeAlias

theorem ofDefinitions_eq_of_wraps (hdefinitions : definitions.Wraps fits definitions') :
    ofDefinitions definitions' = ofDefinitions definitions := by
  refine mapM_eq_of_forall₂ (hdefinitions.imp ?_)
  rintro entry entry' ⟨hname, -, hbody⟩
  rw [hname, TypeExpr.ofNode_eq_of_wraps hdefinitions.contains_eq hbody]

theorem printModule_eq_of_wraps (hdefinitions : definitions.Wraps fits definitions')
    (h : node.Wraps fits node') (style : DeclarationStyle) (rootName : String) :
    printModule style definitions' node' rootName =
      printModule style definitions node rootName := by
  unfold printModule ofModule
  rw [ofDefinitions_eq_of_wraps hdefinitions,
    TypeExpr.ofNode_eq_of_wraps hdefinitions.contains_eq h]

end TypeAlias

end

/-! ## Properties that are `undefined` -/

namespace Validator.TypeBox

variable {definitions : DefinitionMap} {node : Node}

/-- A property in a union of its own is written as the property exactly if it is not `undefined`. -/
theorem ofProperty_single_iff :
    ofProperty definitions (.union node []) = ofProperty definitions node ↔ node ≠ .undefined := by
  constructor
  · -- `undefined` in a union is marked as optional, and by itself not
    rintro h rfl
    have hunion : ofProperty definitions (.union .undefined []) =
        .ok (method "Optional" [method "Undefined" []]) := by
      rw [ofProperty]
      rfl
    have hundefined : ofProperty definitions .undefined = .ok (method "Undefined" []) := by
      rw [ofProperty, ofNode]
      rfl
    rw [hunion, hundefined] at h
    simp [method] at h
  · intro hnode
    have hsingle : node.Wraps Fits (.union node []) := .around (.refl (fun _ => id) node)
    refine ofProperty_eq_of_parts hsingle (fun h => absurd h hnode) ?_
    exact fun part part' _ hpart => ofNode_eq_of_wraps (fun _ => rfl) (fun _ _ => id) hpart

/-- So is a slot. -/
theorem ofNode_slot_single_iff :
    ofNode definitions (.tuple (.union node []) []) = ofNode definitions (.tuple node []) ↔
      node ≠ .undefined := by
  constructor
  · rintro h rfl
    have hundefined : ofNode definitions (.tuple .undefined []) =
        .ok (method "Tuple" [.array [method "Undefined" []]]) := by
      rw [ofNode, ofNode, ofAll]
      rfl
    rw [ofNode, hundefined] at h
    cases h
  · intro hnode
    have hsingle : node.Wraps Fits (.union node []) := .around (.refl (fun _ => id) node)
    have hslot : (Node.tuple node []).Wraps Fits (.tuple (.union node []) []) :=
      .alike (.tuple hsingle .nil (.cons (fun h => absurd h hnode) .nil))
    exact ofNode_eq_of_wraps (fun _ => rfl) (fun _ _ => id) hslot

end Validator.TypeBox

/-! ## Emission -/

/-- The emitters write unions of one member as the member, in nodes and modules. TypeBox does so
where none of them is around an `undefined` that is a property or a slot of its own; around a
property or a slot, it shows exactly there. -/
theorem emission_eq_of_wraps {fits : Node → Node → Prop} {definitions definitions' : DefinitionMap}
    {node node' : Node} (hdefinitions : definitions.Wraps fits definitions')
    (h : node.Wraps fits node') :
    (∀ dialect, Validator.Admits fits dialect →
      Validator.emit dialect definitions' node' = Validator.emit dialect definitions node ∧
      ∀ exported rootName, Validator.emitModule dialect exported definitions' node' rootName =
        Validator.emitModule dialect exported definitions node rootName) ∧
    SchemaGraph.ofNode definitions' node' = SchemaGraph.ofNode definitions node ∧
    TypeExpr.ofNode definitions' node' = TypeExpr.ofNode definitions node ∧
    (∀ style rootName, TypeAlias.printModule style definitions' node' rootName =
      TypeAlias.printModule style definitions node rootName) ∧
    ∀ part, (Validator.TypeBox.ofProperty definitions (.union part []) =
        Validator.TypeBox.ofProperty definitions part ↔ part ≠ .undefined) ∧
      (Validator.TypeBox.ofNode definitions (.tuple (.union part []) []) =
        Validator.TypeBox.ofNode definitions (.tuple part []) ↔ part ≠ .undefined) := by
  refine ⟨?_, SchemaGraph.ofNode_eq_of_wraps hdefinitions h,
    TypeExpr.ofNode_eq_of_wraps hdefinitions.contains_eq h,
    TypeAlias.printModule_eq_of_wraps hdefinitions h,
    fun _ => ⟨Validator.TypeBox.ofProperty_single_iff, Validator.TypeBox.ofNode_slot_single_iff⟩⟩
  intro dialect hadmits
  refine ⟨?_, Validator.emitModule_eq_of_wraps hadmits hdefinitions h⟩
  rw [Validator.emit, Validator.emit,
    Validator.expression_eq_of_wraps hadmits hdefinitions.contains_eq h]

/-- A tree whose nodes may have a parent. -/
def family : DefinitionMap :=
  .ofList [("Tree", ⟨.object [("parent", .union (.reference "Tree" none) [.undefined])], none⟩)]

/-- The same tree, with unions of one member around its body, the parent and the name of the
parent. -/
def wrappedFamily : DefinitionMap :=
  .ofList [("Tree", ⟨.union (.object [("parent",
    .union (.union (.union (.reference "Tree" none) []) [.undefined]) [])]) [], none⟩)]

open Validator in
theorem wrappedFamily_emitted :
    emitModule .typeBox true wrappedFamily (.union (.reference "Tree" none) []) "Root" =
      .ok ("export const Tree = Type.Object(\x7b parent: Type.Optional(Tree) \x7d)\n" ++
        "export const Root = Tree\n") ∧
    SchemaGraph.ofNode wrappedFamily (.union (.reference "Tree" none) []) =
      SchemaGraph.ofNode family (.reference "Tree" none) := by
  -- from inside out: the reference, the property and the body, each with the union around it
  have hname : Node.Wraps TypeBox.Fits (.reference "Tree" none) (.reference "Tree" none) :=
    .alike (.reference _ _)
  have hparent : Node.Wraps TypeBox.Fits (.union (.reference "Tree" none) [.undefined])
      (.union (.union (.union (.reference "Tree" none) []) [.undefined]) []) :=
    .around (.alike (.union (.around hname) (.cons (.alike (.primitive _)) .nil)))
  have hbody : Node.Wraps TypeBox.Fits
      (.object [("parent", .union (.reference "Tree" none) [.undefined])])
      (.union (.object [("parent",
        .union (.union (.union (.reference "Tree" none) []) [.undefined]) [])]) []) :=
    .around (.alike (.object rfl (.cons hparent .nil) (.cons (fun h => Node.noConfusion h) .nil)))
  have hfamily : family.Wraps TypeBox.Fits wrappedFamily := .cons ⟨rfl, rfl, hbody⟩ .nil
  obtain ⟨hvalidators, hgraph, -⟩ := emission_eq_of_wraps hfamily (.around hname)
  obtain ⟨-, hmodule⟩ := hvalidators .typeBox fun _ _ => id
  refine ⟨(hmodule true "Root").trans ?_, hgraph⟩
  have horder : family.dependencyOrder = ["Tree"] :=
    List.perm_singleton.mp (DefinitionMap.dependencyOrder_perm _)
  rw [emitModule, moduleLines, horder]
  decide +kernel

/-- A property or a slot that is `undefined` is required in TypeBox. In a union of one member the
property is optional, and the slot refused. -/
theorem undefinedInUnion_shown :
    Validator.emit .typeBox .empty (.object [("a", .undefined)]) =
      .ok "Type.Object(\x7b a: Type.Undefined() \x7d)" ∧
    Validator.emit .typeBox .empty (.object [("a", .union .undefined [])]) =
      .ok "Type.Object(\x7b a: Type.Optional(Type.Undefined()) \x7d)" ∧
    Validator.emit .typeBox .empty (.tuple .undefined []) = .ok "Type.Tuple([Type.Undefined()])" ∧
    Validator.emit .typeBox .empty (.tuple (.union .undefined []) []) =
      .error (.unsupportedFeature .typeBox .optionalTupleElement) := by
  decide +kernel

end TypeGraph
