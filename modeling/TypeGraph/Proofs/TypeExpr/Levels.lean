import TypeGraph.Proofs.Emission.Passes
import TypeGraph.Proofs.Node.Normal

/-!
# Types level by level

A node that has a type has it in one way for each form of node: the types of its parts under the
form that stands for its own. `TypeExpr.Level` lists these ways once, with a relation for the parts,
and what is shown of the types of nodes is shown of a level at a time.

Main results:

* `TypeExpr.fills_ofSlot`: what is written for a node in a slot.
* `TypeExpr.level_ofNode`: the type of a node comes from the types of smaller nodes by one level.
* `TypeExpr.ofNode_induction`: what passes through every level holds between a node and its type.
-/

namespace TypeGraph.TypeExpr

variable {definitions : DefinitionMap} {R S : TypeExpr → Node → Prop}

/-- The names of parameters apart, nothing is changed. -/
theorem map_snd_parametersOf (types : List TypeExpr) :
    (parametersOf types).map Prod.snd = types := by
  rw [parametersOf]
  exact List.ext_getElem (by simp) (by simp)

/-! ## Slots -/

/-- What is written for a node in a slot, with `R` between types and nodes: an optional node gets
the mark and the type of what is left of it. -/
inductive Fills (R : TypeExpr → Node → Prop) : Bool × TypeExpr → Node → Prop where
  | required {type : TypeExpr} {node : Node} (optional : node.isOptional = false)
      (whole : R type node) :
      Fills R (false, type) node
  | vacant {node : Node} (optional : node.isOptional = true)
      (nothing : node.withoutUndefined = none) :
      Fills R (true, keyword .undefined) node
  | optional {type : TypeExpr} {node content : Node} (optional : node.isOptional = true)
      (left : node.withoutUndefined = some content) (part : R type content) :
          Fills R (true, type) node

namespace Fills

variable {slot : Bool × TypeExpr} {node : Node}

/-- A slot is marked if its node is optional. -/
theorem mark (h : Fills R slot node) : slot.1 = node.isOptional := by
  cases h with
  | required optional | vacant optional | optional optional => exact optional.symm

theorem imp (h : Fills R slot node)
    (himp : ∀ type content, sizeOf content ≤ sizeOf node → R type content → S type content) :
    Fills S slot node := by
  cases h with
  | required optional whole => exact .required optional (himp _ _ (Nat.le_refl _) whole)
  | vacant optional nothing => exact .vacant optional nothing
  | optional optional left part =>
    have hsmaller := Node.sizeOf_lt_of_withoutUndefined optional left
    exact .optional optional left (himp _ _ (Nat.le_of_lt hsmaller) part)

end Fills

theorem fills_ofSlot {node : Node} {slot : Bool × TypeExpr}
    (h : ofSlot definitions node = .ok slot) :
    Fills (fun type content => ofNode definitions content = .ok type) slot node := by
  rw [ofSlot] at h
  rcases node.presence_cases with ⟨ho, hp⟩ | ⟨ho, hnothing, hp⟩ | ⟨content, _, ho, hleft, hp⟩
  · rw [hp] at h
    obtain ⟨type, htype, h⟩ := exists_of_bind_eq_ok h
    cases h
    exact .required ho htype
  · rw [hp] at h
    cases h
    exact .vacant ho hnothing
  · rw [hp] at h
    obtain ⟨type, htype, h⟩ := exists_of_bind_eq_ok h
    cases h
    exact .optional ho hleft htype

/-! ## Levels -/

/-- The ways in which a type is that of a node, with `R` between the types and nodes inside. -/
inductive Level (definitions : DefinitionMap)
    (R : TypeExpr → Node → Prop) : TypeExpr → Node → Prop where
  | primitive (kind : Primitive) : Level definitions R (ofPrimitive kind) (.primitive kind)
  | literal {type : TypeExpr} {value : Literal} (written : ofLiteral value = .ok type) :
      Level definitions R type (.literal value)
  | array {type : TypeExpr} {element : Node} (inside : R type element) :
      Level definitions R (array type) (.array element)
  | set {type : TypeExpr} {element : Node} (inside : R type element) :
      Level definitions R (reference "Set" [type]) (.set element)
  | record {keyType valueType : TypeExpr} {key value : Node} (keys : R keyType key)
      (values : R valueType value) :
      Level definitions R (reference "Record" [keyType, valueType]) (.record key value)
  | map {keyType valueType : TypeExpr} {key value : Node} (keys : R keyType key)
      (values : R valueType value) :
      Level definitions R (reference "Map" [keyType, valueType]) (.map key value)
  | object {properties : List (String × Bool × TypeExpr)} {shape : List (String × Node)}
      (slots : List.Forall₂
        (fun property entry => property.1 = entry.1 ∧ Fills R property.2 entry.2)
        properties shape) : Level definitions R (object properties) (.object shape)
  /-- One member is written as it is. -/
  | single {type : TypeExpr} {member : Node} (inside : R type member) :
      Level definitions R type (.union member [])
  | union {types : List TypeExpr} {first second : Node} {rest : List Node}
      (members : List.Forall₂ R types (first :: second :: rest)) :
      Level definitions R (union types) (.union first (second :: rest))
  | tuple {elements : List (Bool × TypeExpr)} {first : Node} {rest : List Node}
      (slots : List.Forall₂ (Fills R) elements (first :: rest)) :
      Level definitions R (tuple elements) (.tuple first rest)
  | intersection {types : List TypeExpr} {first : Node} {rest : List Node}
      (members : List.Forall₂ R types (first :: rest)) :
      Level definitions R (intersection types) (.intersection first rest)
  /-- A function that returns nothing is written with the keyword for that. -/
  | procedure {types : List TypeExpr} {parameters : List Node}
      (arguments : List.Forall₂ R types parameters) :
      Level definitions R (function (parametersOf types) (keyword .void))
        (.function parameters none)
  | function {types : List TypeExpr} {parameters : List Node} {type : TypeExpr} {returns : Node}
      (arguments : List.Forall₂ R types parameters) (result : R type returns) :
      Level definitions R (function (parametersOf types) type) (.function parameters (some returns))
  | reference {identifier : String} {displayName : Option String}
      (defined : definitions.contains identifier = true) :
      Level definitions R (reference identifier []) (.reference identifier displayName)

/-- Only what the relation says of smaller nodes matters. -/
theorem Level.imp {type : TypeExpr} {node : Node} (h : Level definitions R type node)
    (himp : ∀ type part, sizeOf part < sizeOf node → R type part → S type part) :
    Level definitions S type node := by
  -- parts are children, and slots have no more in them than the children they are for
  have hchild (type : TypeExpr) (child : Node) (hc : child ∈ node.children) (hr : R type child) :
      S type child :=
    himp type child (Node.sizeOf_lt_of_mem_children hc) hr
  have hslot (slot : Bool × TypeExpr) (child : Node) (hc : child ∈ node.children)
      (hr : Fills R slot child) :
      Fills S slot child :=
    hr.imp fun type content hle =>
      himp type content (Nat.lt_of_le_of_lt hle (Node.sizeOf_lt_of_mem_children hc))
  cases h with
  | primitive kind => exact .primitive kind
  | literal written => exact .literal written
  | array inside => exact .array (hchild _ _ List.mem_cons_self inside)
  | set inside => exact .set (hchild _ _ List.mem_cons_self inside)
  | record keys values =>
    exact .record (hchild _ _ List.mem_cons_self keys) (hchild _ _ (by simp [Node.children]) values)
  | map keys values =>
    exact .map (hchild _ _ List.mem_cons_self keys) (hchild _ _ (by simp [Node.children]) values)
  | object slots =>
    refine .object (forall₂_imp_of_mem slots fun property entry hm hr => ⟨hr.1, ?_⟩)
    exact hslot property.2 entry.2 (List.mem_map_of_mem hm) hr.2
  | single inside => exact .single (hchild _ _ List.mem_cons_self inside)
  | union members => exact .union (forall₂_imp_of_mem members hchild)
  | tuple slots => exact .tuple (forall₂_imp_of_mem slots hslot)
  | intersection members => exact .intersection (forall₂_imp_of_mem members hchild)
  | procedure arguments =>
    exact .procedure
      (forall₂_imp_of_mem arguments fun _ _ hm => hchild _ _ (List.mem_append_left _ hm))
  | function arguments result =>
    exact .function
      (forall₂_imp_of_mem arguments fun _ _ hm => hchild _ _ (List.mem_append_left _ hm))
      (hchild _ _ (List.mem_append_right _ List.mem_cons_self) result)
  | reference defined => exact .reference defined

theorem forall₂_ofAll {nodes : List Node} {types : List TypeExpr}
    (h : ofAll definitions nodes = .ok types) :
    List.Forall₂ (fun type node => ofNode definitions node = .ok type) types nodes := by
  rw [ofAll_eq_mapM] at h
  exact (forall₂_of_mapM h).flip

/-- The type of a node comes from the types of its parts. -/
theorem level_ofNode {node : Node} {type : TypeExpr} (h : ofNode definitions node = .ok type) :
    Level definitions (fun type part => ofNode definitions part = .ok type) type node := by
  cases node with
  | primitive kind =>
    rw [ofNode] at h
    cases h
    exact .primitive kind
  | literal value =>
    rw [ofNode] at h
    exact .literal h
  | array element =>
    rw [ofNode] at h
    obtain ⟨inner, hinner, h⟩ := exists_of_bind_eq_ok h
    cases h
    exact .array hinner
  | set element =>
    rw [ofNode] at h
    obtain ⟨inner, hinner, h⟩ := exists_of_bind_eq_ok h
    cases h
    exact .set hinner
  | record key value =>
    rw [ofNode] at h
    obtain ⟨keyType, hkey, h⟩ := exists_of_bind_eq_ok h
    obtain ⟨valueType, hvalue, h⟩ := exists_of_bind_eq_ok h
    cases h
    exact .record hkey hvalue
  | map key value =>
    rw [ofNode] at h
    obtain ⟨keyType, hkey, h⟩ := exists_of_bind_eq_ok h
    obtain ⟨valueType, hvalue, h⟩ := exists_of_bind_eq_ok h
    cases h
    exact .map hkey hvalue
  | object shape =>
    rw [ofNode, ofShape_eq_mapM] at h
    obtain ⟨properties, hproperties, h⟩ := exists_of_bind_eq_ok h
    cases h
    refine .object ((forall₂_of_mapM_values hproperties).imp fun property entry hproperty => ?_)
    exact ⟨hproperty.1, fills_ofSlot hproperty.2⟩
  | union first rest =>
    cases rest with
    | nil =>
      rw [ofNode] at h
      exact .single h
    | cons second rest =>
      -- the equation for several members asks that there is a second one
      rw [ofNode] at h
      · obtain ⟨head, hhead, h⟩ := exists_of_bind_eq_ok h
        obtain ⟨tail, htail, h⟩ := exists_of_bind_eq_ok h
        cases h
        exact .union (.cons hhead (forall₂_ofAll htail))
      · exact List.cons_ne_nil _ _
  | tuple first rest =>
    rw [ofNode, ofSlots_eq_mapM] at h
    obtain ⟨head, hhead, h⟩ := exists_of_bind_eq_ok h
    obtain ⟨tail, htail, h⟩ := exists_of_bind_eq_ok h
    cases h
    have hslots := (forall₂_of_mapM htail).flip.imp fun _ _ => fills_ofSlot
    exact .tuple (.cons (fills_ofSlot hhead) hslots)
  | intersection first rest =>
    rw [ofNode] at h
    obtain ⟨head, hhead, h⟩ := exists_of_bind_eq_ok h
    obtain ⟨tail, htail, h⟩ := exists_of_bind_eq_ok h
    cases h
    exact .intersection (.cons hhead (forall₂_ofAll htail))
  | function parameters returns =>
    rw [ofNode] at h
    obtain ⟨types, htypes, h⟩ := exists_of_bind_eq_ok h
    obtain ⟨result, hresult, h⟩ := exists_of_bind_eq_ok h
    cases h
    cases returns with
    | none =>
      rw [ofReturns] at hresult
      cases hresult
      exact .procedure (forall₂_ofAll htypes)
    | some returns =>
      rw [ofReturns] at hresult
      exact .function (forall₂_ofAll htypes) hresult
  | reference identifier displayName =>
    rw [ofNode] at h
    split at h
    · rename_i hdefined
      cases h
      exact .reference hdefined
    · cases h

/-- What passes through every level holds between a node and its type. -/
theorem ofNode_induction {motive : TypeExpr → Node → Prop}
    (step : ∀ type node, Level definitions motive type node → motive type node) {type : TypeExpr}
    {node : Node} (h : ofNode definitions node = .ok type) : motive type node :=
  step type node ((level_ofNode h).imp fun _ _ _ hpart => ofNode_induction step hpart)
  termination_by sizeOf node

end TypeGraph.TypeExpr
