import TypeGraph.Proofs.Emission.Faults
import TypeGraph.Proofs.Emission.Passes
import TypeGraph.Proofs.Lists
import TypeGraph.Proofs.Node.Normal

/-!
# Validators level by level

A node that has a validator has it in one way for each form of node: the validators of its parts,
passed to the method that stands for the form. `Zod.Level` and `TypeBox.Level` list these ways once
for each dialect, with a relation for the parts, and what is shown of the validators of nodes is
shown of a level at a time.

The dialects part where a node is optional. Zod marks every union that is, and TypeBox only the
unions that are properties (`TypeBox.Fills`), so that the parts of a level are smaller than its node
but are not always its children.

Main results:

* `Zod.level_ofNode`, `TypeBox.level_ofNode`: the validator of a node comes from those of smaller
  nodes by one level.
* `Zod.ofNode_induction`, `TypeBox.ofNode_induction`: what passes through every level holds between
  a node and its validator.
-/

namespace TypeGraph.Validator

variable {definitions : DefinitionMap} {R S : Expr → Node → Prop} {expr : Expr} {node : Node}

/-! ## Zod -/

namespace Zod

/-- The ways in which a Zod validator is that of a node, with `R` between the validators and nodes
inside. -/
inductive Level (definitions : DefinitionMap) (R : Expr → Node → Prop) : Expr → Node → Prop where
  | primitive (kind : Primitive) : Level definitions R (ofPrimitive kind) (.primitive kind)
  | literal (value : Literal) :
      Level definitions R (method "literal" [.literal value]) (.literal value)
  | array {expr : Expr} {element : Node} (inside : R expr element) :
      Level definitions R (method "array" [expr]) (.array element)
  | set {expr : Expr} {element : Node} (inside : R expr element) :
      Level definitions R (method "set" [expr]) (.set element)
  | record {keyExpr valueExpr : Expr} {key value : Node} (keys : R keyExpr key)
      (values : R valueExpr value) :
      Level definitions R (method "record" [keyExpr, valueExpr]) (.record key value)
  | map {keyExpr valueExpr : Expr} {key value : Node} (keys : R keyExpr key)
      (values : R valueExpr value) :
      Level definitions R (method "map" [keyExpr, valueExpr]) (.map key value)
  | object {properties : List (String × Expr)} {shape : List (String × Node)}
      (slots : List.Forall₂ (fun property entry => property.1 = entry.1 ∧ R property.2 entry.2)
        properties shape) :
      Level definitions R (method "object" [.object properties]) (.object shape)
  /-- One member is written as it is. -/
  | single {expr : Expr} {member : Node} (inside : R expr member) :
      Level definitions R expr (.union member [])
  /-- A union that admits `undefined` is what is left of it, with the mark. -/
  | optional {expr : Expr} {first second : Node} {rest : List Node} {content : Node}
      {smaller : sizeOf content < sizeOf (Node.union first (second :: rest))}
      (left : (Node.union first (second :: rest)).presence = .optional content smaller)
      (part : R expr content) :
      Level definitions R (.call expr "optional" []) (.union first (second :: rest))
  | union {exprs : List Expr} {first second : Node} {rest : List Node}
      (unmarked : ∀ content smaller,
        (Node.union first (second :: rest)).presence ≠ .optional content smaller)
      (members : List.Forall₂ R exprs (first :: second :: rest)) :
      Level definitions R (method "union" [.array exprs]) (.union first (second :: rest))
  | tuple {exprs : List Expr} {first : Node} {rest : List Node}
      (elements : List.Forall₂ R exprs (first :: rest)) :
      Level definitions R (method "tuple" [.array exprs]) (.tuple first rest)
  | intersection {expr : Expr} {exprs : List Expr} {first : Node} {rest : List Node}
      (head : R expr first) (members : List.Forall₂ R exprs rest) :
      Level definitions R (conjunction expr exprs) (.intersection first rest)
  | procedure {exprs : List Expr} {parameters : List Node}
      (arguments : List.Forall₂ R exprs parameters) :
      Level definitions R (function exprs none) (.function parameters none)
  | function {exprs : List Expr} {parameters : List Node} {expr : Expr} {returns : Node}
      (arguments : List.Forall₂ R exprs parameters) (result : R expr returns) :
      Level definitions R (function exprs (some expr)) (.function parameters (some returns))
  | reference {identifier : String} {displayName : Option String}
      (defined : definitions.contains identifier = true) :
      Level definitions R (.identifier identifier) (.reference identifier displayName)

/-- Only what the relation says of smaller nodes matters. -/
theorem Level.imp (h : Level definitions R expr node)
    (himp : ∀ expr part, sizeOf part < sizeOf node → R expr part → S expr part) :
    Level definitions S expr node := by
  have hchild (expr : Expr) (child : Node) (hc : child ∈ node.children) (hr : R expr child) :
      S expr child :=
    himp expr child (Node.sizeOf_lt_of_mem_children hc) hr
  cases h with
  | primitive kind => exact .primitive kind
  | literal value => exact .literal value
  | array inside => exact .array (hchild _ _ List.mem_cons_self inside)
  | set inside => exact .set (hchild _ _ List.mem_cons_self inside)
  | record keys values =>
    exact .record (hchild _ _ List.mem_cons_self keys) (hchild _ _ (by simp [Node.children]) values)
  | map keys values =>
    exact .map (hchild _ _ List.mem_cons_self keys) (hchild _ _ (by simp [Node.children]) values)
  | object slots =>
    refine .object (forall₂_imp_of_mem slots fun property entry hm hr => ⟨hr.1, ?_⟩)
    exact hchild property.2 entry.2 (List.mem_map_of_mem hm) hr.2
  | single inside => exact .single (hchild _ _ List.mem_cons_self inside)
  | @optional _ _ _ _ _ smaller left part =>
    -- what is left of the union is no child of it, but smaller
    exact .optional left (himp _ _ smaller part)
  | union unmarked members => exact .union unmarked (forall₂_imp_of_mem members hchild)
  | tuple elements => exact .tuple (forall₂_imp_of_mem elements hchild)
  | intersection head members =>
    exact .intersection (hchild _ _ List.mem_cons_self head)
      (forall₂_imp_of_mem members fun _ _ hm => hchild _ _ (List.mem_cons_of_mem _ hm))
  | procedure arguments =>
    exact .procedure
      (forall₂_imp_of_mem arguments fun _ _ hm => hchild _ _ (List.mem_append_left _ hm))
  | function arguments result =>
    exact .function
      (forall₂_imp_of_mem arguments fun _ _ hm => hchild _ _ (List.mem_append_left _ hm))
      (hchild _ _ (List.mem_append_right _ List.mem_cons_self) result)
  | reference defined => exact .reference defined

/-- The validator of a node comes from the validators of its parts. -/
theorem level_ofNode (h : ofNode definitions node = .ok expr) :
    Level definitions (fun expr part => ofNode definitions part = .ok expr) expr node := by
  cases node with
  | primitive kind =>
    rw [ofNode] at h
    cases h
    exact .primitive kind
  | literal value =>
    rw [ofNode] at h
    cases h
    exact .literal value
  | array element =>
    rw [ofNode] at h
    obtain ⟨inner, hinner, h⟩ := exists_of_bind_eq_ok h
    cases h
    exact .array hinner
  | set element =>
    rw [ofNode] at h
    obtain ⟨inner, hinner, h⟩ := exists_of_bind_eq_ok h
    cases h
    exact .set hinner
  | record key value =>
    rw [ofNode] at h
    obtain ⟨keyExpr, hkey, h⟩ := exists_of_bind_eq_ok h
    obtain ⟨valueExpr, hvalue, h⟩ := exists_of_bind_eq_ok h
    cases h
    exact .record hkey hvalue
  | map key value =>
    rw [ofNode] at h
    obtain ⟨keyExpr, hkey, h⟩ := exists_of_bind_eq_ok h
    obtain ⟨valueExpr, hvalue, h⟩ := exists_of_bind_eq_ok h
    cases h
    exact .map hkey hvalue
  | object shape =>
    rw [ofNode, ofShape_eq_mapM] at h
    obtain ⟨properties, hproperties, h⟩ := exists_of_bind_eq_ok h
    cases h
    exact .object (forall₂_of_mapM_values hproperties)
  | union first rest =>
    cases rest with
    | nil =>
      rw [ofNode] at h
      exact .single h
    | cons second rest =>
      rw [ofNode_union, ofAll_eq_mapM] at h
      split at h
      · rename_i content smaller hpresence
        obtain ⟨inner, hinner, h⟩ := exists_of_bind_eq_ok h
        cases h
        exact .optional hpresence hinner
      · rename_i hunmarked
        obtain ⟨head, hhead, h⟩ := exists_of_bind_eq_ok h
        obtain ⟨tail, htail, h⟩ := exists_of_bind_eq_ok h
        cases h
        exact .union hunmarked (.cons hhead (forall₂_of_mapM htail).flip)
  | tuple first rest =>
    rw [ofNode, ofAll_eq_mapM] at h
    obtain ⟨head, hhead, h⟩ := exists_of_bind_eq_ok h
    obtain ⟨tail, htail, h⟩ := exists_of_bind_eq_ok h
    cases h
    exact .tuple (.cons hhead (forall₂_of_mapM htail).flip)
  | intersection first rest =>
    rw [ofNode, ofAll_eq_mapM] at h
    obtain ⟨head, hhead, h⟩ := exists_of_bind_eq_ok h
    obtain ⟨tail, htail, h⟩ := exists_of_bind_eq_ok h
    cases h
    exact .intersection hhead (forall₂_of_mapM htail).flip
  | function parameters returns =>
    rw [ofNode, ofAll_eq_mapM] at h
    obtain ⟨exprs, hexprs, h⟩ := exists_of_bind_eq_ok h
    obtain ⟨result, hresult, h⟩ := exists_of_bind_eq_ok h
    cases h
    cases returns with
    | none =>
      rw [ofOption] at hresult
      cases hresult
      exact .procedure (forall₂_of_mapM hexprs).flip
    | some returns =>
      rw [ofOption] at hresult
      obtain ⟨inner, hinner, hresult⟩ := exists_of_bind_eq_ok hresult
      cases hresult
      exact .function (forall₂_of_mapM hexprs).flip hinner
  | reference identifier displayName =>
    rw [ofNode] at h
    split at h
    · rename_i hdefined
      cases h
      exact .reference hdefined
    · cases h

/-- What passes through every level holds between a node and its validator. -/
theorem ofNode_induction {motive : Expr → Node → Prop}
    (step : ∀ expr node, Level definitions motive expr node → motive expr node) {expr : Expr}
    {node : Node} (h : ofNode definitions node = .ok expr) : motive expr node :=
  step expr node ((level_ofNode h).imp fun _ _ _ hpart => ofNode_induction step hpart)
  termination_by sizeOf node

end Zod

/-! ## TypeBox -/

namespace TypeBox

/-- What is written for the node of a property, with `R` between validators and nodes: an optional
union gets the mark and the validator of what is left of it. -/
inductive Fills (R : Expr → Node → Prop) : Expr → Node → Prop where
  | unmarked {expr : Expr} {node : Node} (required : isOptionalUnion node = false)
      (whole : R expr node) :
      Fills R expr node
  | vacant {node : Node} (optional : isOptionalUnion node = true)
      (nothing : node.presence = .vacant) :
      Fills R (method "Optional" [method "Undefined" []]) node
  | marked {expr : Expr} {node content : Node} {smaller : sizeOf content < sizeOf node}
      (optional : isOptionalUnion node = true) (left : node.presence = .optional content smaller)
      (part : R expr content) :
      Fills R (method "Optional" [expr]) node

theorem Fills.imp (h : Fills R expr node)
    (himp : ∀ expr part, sizeOf part ≤ sizeOf node → R expr part → S expr part) :
    Fills S expr node := by
  cases h with
  | unmarked required whole => exact .unmarked required (himp _ _ (Nat.le_refl _) whole)
  | vacant optional nothing => exact .vacant optional nothing
  | @marked _ _ _ smaller optional left part =>
    exact .marked optional left (himp _ _ (Nat.le_of_lt smaller) part)

theorem fills_ofProperty (h : ofProperty definitions node = .ok expr) :
    Fills (fun expr part => ofNode definitions part = .ok expr) expr node := by
  rw [ofProperty] at h
  cases hunion : isOptionalUnion node with
  | false =>
    rw [hunion] at h
    exact .unmarked hunion h
  | true =>
    -- an optional union is an optional node
    have hoptional := isOptional_of_isOptionalUnion hunion
    rw [hunion] at h
    rcases node.presence_cases with ⟨ho, -⟩ | ⟨-, -, hp⟩ | ⟨content, smaller, -, -, hp⟩
    · cases ho.symm.trans hoptional
    · rw [hp] at h
      cases h
      exact .vacant hunion hp
    · rw [hp] at h
      obtain ⟨inner, hinner, h⟩ := exists_of_bind_eq_ok h
      cases h
      exact .marked hunion hp hinner

/-- The ways in which a TypeBox validator is that of a node, with `R` between the validators and
nodes inside. -/
inductive Level (definitions : DefinitionMap) (R : Expr → Node → Prop) : Expr → Node → Prop where
  | primitive {expr : Expr} {kind : Primitive} (written : ofPrimitive kind = .ok expr) :
      Level definitions R expr (.primitive kind)
  | literal {expr : Expr} {value : Literal} (written : ofLiteral value = .ok expr) :
      Level definitions R expr (.literal value)
  | array {expr : Expr} {element : Node} (inside : R expr element) :
      Level definitions R (method "Array" [expr]) (.array element)
  | record {keyExpr valueExpr : Expr} {key value : Node} (keys : R keyExpr key)
      (values : R valueExpr value) :
      Level definitions R (method "Record" [keyExpr, valueExpr]) (.record key value)
  | object {properties : List (String × Expr)} {shape : List (String × Node)}
      (slots : List.Forall₂
        (fun property entry => property.1 = entry.1 ∧ Fills R property.2 entry.2)
        properties shape) :
      Level definitions R (method "Object" [.object properties]) (.object shape)
  /-- One member is written as it is. -/
  | single {expr : Expr} {member : Node} (inside : R expr member) :
      Level definitions R expr (.union member [])
  | union {exprs : List Expr} {first second : Node} {rest : List Node}
      (members : List.Forall₂ R exprs (first :: second :: rest)) :
      Level definitions R (method "Union" [.array exprs]) (.union first (second :: rest))
  | tuple {exprs : List Expr} {first : Node} {rest : List Node}
      (elements : List.Forall₂ R exprs (first :: rest)) :
      Level definitions R (method "Tuple" [.array exprs]) (.tuple first rest)
  | intersection {exprs : List Expr} {first : Node} {rest : List Node}
      (members : List.Forall₂ R exprs (first :: rest)) :
      Level definitions R (method "Intersect" [.array exprs]) (.intersection first rest)
  | procedure {exprs : List Expr} {parameters : List Node}
      (arguments : List.Forall₂ R exprs parameters) :
      Level definitions R (method "Function" [.array exprs, method "Void" []])
        (.function parameters none)
  | function {exprs : List Expr} {parameters : List Node} {expr : Expr} {returns : Node}
      (arguments : List.Forall₂ R exprs parameters) (result : R expr returns) :
      Level definitions R (method "Function" [.array exprs, expr])
        (.function parameters (some returns))
  | reference {identifier : String} {displayName : Option String}
      (defined : definitions.contains identifier = true) :
      Level definitions R (.identifier identifier) (.reference identifier displayName)

/-- Only what the relation says of smaller nodes matters. -/
theorem Level.imp (h : Level definitions R expr node)
    (himp : ∀ expr part, sizeOf part < sizeOf node → R expr part → S expr part) :
    Level definitions S expr node := by
  -- properties have no more in them than the children they are for
  have hchild (expr : Expr) (child : Node) (hc : child ∈ node.children) (hr : R expr child) :
      S expr child :=
    himp expr child (Node.sizeOf_lt_of_mem_children hc) hr
  cases h with
  | primitive written => exact .primitive written
  | literal written => exact .literal written
  | array inside => exact .array (hchild _ _ List.mem_cons_self inside)
  | record keys values =>
    exact .record (hchild _ _ List.mem_cons_self keys) (hchild _ _ (by simp [Node.children]) values)
  | object slots =>
    refine .object (forall₂_imp_of_mem slots fun property entry hm hr => ⟨hr.1, ?_⟩)
    refine hr.2.imp fun expr part hle => himp expr part (Nat.lt_of_le_of_lt hle ?_)
    exact Node.sizeOf_lt_of_mem_children (List.mem_map_of_mem hm)
  | single inside => exact .single (hchild _ _ List.mem_cons_self inside)
  | union members => exact .union (forall₂_imp_of_mem members hchild)
  | tuple elements => exact .tuple (forall₂_imp_of_mem elements hchild)
  | intersection members => exact .intersection (forall₂_imp_of_mem members hchild)
  | procedure arguments =>
    exact .procedure
      (forall₂_imp_of_mem arguments fun _ _ hm => hchild _ _ (List.mem_append_left _ hm))
  | function arguments result =>
    exact .function
      (forall₂_imp_of_mem arguments fun _ _ hm => hchild _ _ (List.mem_append_left _ hm))
      (hchild _ _ (List.mem_append_right _ List.mem_cons_self) result)
  | reference defined => exact .reference defined

/-- The validator of a node comes from the validators of its parts. -/
theorem level_ofNode (h : ofNode definitions node = .ok expr) :
    Level definitions (fun expr part => ofNode definitions part = .ok expr) expr node := by
  cases node with
  | primitive kind =>
    rw [ofNode] at h
    exact .primitive h
  | literal value =>
    rw [ofNode] at h
    exact .literal h
  | array element =>
    rw [ofNode] at h
    obtain ⟨inner, hinner, h⟩ := exists_of_bind_eq_ok h
    cases h
    exact .array hinner
  | set | map =>
    rw [ofNode] at h
    cases h
  | record key value =>
    rw [ofNode] at h
    obtain ⟨keyExpr, hkey, h⟩ := exists_of_bind_eq_ok h
    obtain ⟨valueExpr, hvalue, h⟩ := exists_of_bind_eq_ok h
    cases h
    exact .record hkey hvalue
  | object shape =>
    rw [ofNode, ofShape_eq_mapM] at h
    obtain ⟨properties, hproperties, h⟩ := exists_of_bind_eq_ok h
    cases h
    refine .object ((forall₂_of_mapM_values hproperties).imp fun property entry hproperty => ?_)
    exact ⟨hproperty.1, fills_ofProperty hproperty.2⟩
  | union first rest =>
    cases rest with
    | nil =>
      rw [ofNode] at h
      exact .single h
    | cons second rest =>
      rw [ofNode_union, ofAll_eq_mapM] at h
      obtain ⟨head, hhead, h⟩ := exists_of_bind_eq_ok h
      obtain ⟨tail, htail, h⟩ := exists_of_bind_eq_ok h
      cases h
      exact .union (.cons hhead (forall₂_of_mapM htail).flip)
  | tuple first rest =>
    rw [ofNode, ofAll_eq_mapM] at h
    split at h
    · cases h
    · obtain ⟨head, hhead, h⟩ := exists_of_bind_eq_ok h
      obtain ⟨tail, htail, h⟩ := exists_of_bind_eq_ok h
      cases h
      exact .tuple (.cons hhead (forall₂_of_mapM htail).flip)
  | intersection first rest =>
    rw [ofNode, ofAll_eq_mapM] at h
    obtain ⟨head, hhead, h⟩ := exists_of_bind_eq_ok h
    obtain ⟨tail, htail, h⟩ := exists_of_bind_eq_ok h
    cases h
    exact .intersection (.cons hhead (forall₂_of_mapM htail).flip)
  | function parameters returns =>
    rw [ofNode, ofAll_eq_mapM] at h
    -- the result is written before the parameters
    obtain ⟨result, hresult, h⟩ := exists_of_bind_eq_ok h
    obtain ⟨exprs, hexprs, h⟩ := exists_of_bind_eq_ok h
    cases h
    cases returns with
    | none =>
      rw [ofReturns] at hresult
      cases hresult
      exact .procedure (forall₂_of_mapM hexprs).flip
    | some returns =>
      rw [ofReturns] at hresult
      exact .function (forall₂_of_mapM hexprs).flip hresult
  | reference identifier displayName =>
    rw [ofNode] at h
    split at h
    · rename_i hdefined
      cases h
      exact .reference hdefined
    · cases h

/-- What passes through every level holds between a node and its validator. -/
theorem ofNode_induction {motive : Expr → Node → Prop}
    (step : ∀ expr node, Level definitions motive expr node → motive expr node) {expr : Expr}
    {node : Node} (h : ofNode definitions node = .ok expr) : motive expr node :=
  step expr node ((level_ofNode h).imp fun _ _ _ hpart => ofNode_induction step hpart)
  termination_by sizeOf node

end TypeBox

end TypeGraph.Validator
