import TypeGraph.TypeExpr.Printer
import TypeGraph.Proofs.Lists
import TypeGraph.Proofs.Text.Literals

/-!
# Canonical type expressions

What a type expression says, apart from how it is put: parentheses are left out, a union or an
intersection of one member is the member, and unions directly in unions and intersections directly
in intersections are one. Unions and intersections are treated alike, as one operator each.

Main results:

* `TypeExpr.flat_canonical`: a canonical type has no union directly in a union and none of one
  member, and the same of intersections.
-/

namespace TypeGraph

namespace TypeExpr

/-- What joins types to one. -/
inductive Operator where
  | union
  | intersection

namespace Operator

/-- The type that is joined of members. -/
def join : Operator → List TypeExpr → TypeExpr
  | .union => TypeExpr.union
  | .intersection => TypeExpr.intersection

/-- The members of a type that the operator joins; any other type is its only member. -/
def members : Operator → TypeExpr → List TypeExpr
  | .union, .union members => members
  | .intersection, .intersection members => members
  | _, type => [type]

/-- The type that is joined of members, which for one member is the member. -/
def collapse (operator : Operator) : List TypeExpr → TypeExpr
  | [member] => member
  | members => operator.join members

end Operator

theorem sizeOf_type_lt_of_mem {properties : List (String × Bool × TypeExpr)}
    {property : String × Bool × TypeExpr} (h : property ∈ properties) :
    sizeOf property.2.2 < sizeOf properties := by
  have hproperty := sizeOf_snd_lt_of_mem h
  obtain ⟨name, optional, type⟩ := property
  rw [Prod.mk.sizeOf_spec] at hproperty
  show sizeOf type < sizeOf properties
  omega

/-- The type without parentheses, with members joined at one level and zero positive. -/
def canonical : TypeExpr → TypeExpr
  | keyword k => keyword k
  | literal value => literal value.canonical
  | reference name arguments => reference name (arguments.map canonical)
  | object properties =>
    object (properties.map fun property => (property.1, property.2.1, property.2.2.canonical))
  | array element => array element.canonical
  | tuple elements => tuple (elements.map fun element => (element.1, element.2.canonical))
  | function parameters returns =>
    function (parameters.map fun parameter => (parameter.1, parameter.2.canonical))
      returns.canonical
  -- a member may become a union of its own, so members are made canonical before they are joined
  | union members =>
    Operator.union.collapse ((members.map canonical).flatMap Operator.union.members)
  | intersection members =>
    Operator.intersection.collapse ((members.map canonical).flatMap Operator.intersection.members)
  | parenthesized inner => inner.canonical
  termination_by type => sizeOf type
  decreasing_by
    all_goals simp only [reference.sizeOf_spec, object.sizeOf_spec, array.sizeOf_spec,
      tuple.sizeOf_spec, function.sizeOf_spec, union.sizeOf_spec, intersection.sizeOf_spec,
      parenthesized.sizeOf_spec]
    · have := List.sizeOf_lt_of_mem ‹_ ∈ arguments›; omega
    · have := sizeOf_type_lt_of_mem ‹_ ∈ properties›; omega
    · omega
    · have := sizeOf_snd_lt_of_mem ‹_ ∈ elements›; omega
    · have := sizeOf_snd_lt_of_mem ‹_ ∈ parameters›; omega
    · omega
    · have := List.sizeOf_lt_of_mem ‹_ ∈ members›; omega
    · have := List.sizeOf_lt_of_mem ‹_ ∈ members›; omega
    · omega

/-- Operators are treated alike. -/
theorem canonical_join (operator : Operator) (members : List TypeExpr) :
    (operator.join members).canonical =
      operator.collapse ((members.map canonical).flatMap operator.members) := by
  cases operator <;> exact canonical.eq_def _

/-! ## Printable types -/

/-- Whether a name is read as a name: it is a bare identifier that is neither a keyword nor a
literal. -/
def isName (name : String) : Bool :=
  Identifier.isBare name && (Keyword.ofText? name).isNone
    && !(name == "true" || name == "false" || name == "null")

/-- Types that can be read: numbers are finite, the names of references and parameters are names,
and unions and intersections have members. -/
inductive Printable : TypeExpr → Prop
  | keyword (k : Keyword) : Printable (keyword k)
  | literal {value : Literal} (finite : ∀ x, value = .number x → x.isFinite = true) :
    Printable (literal value)
  | reference {name : String} {arguments : List TypeExpr} (hname : isName name = true)
    (harguments : ∀ argument ∈ arguments, Printable argument) : Printable (reference name arguments)
  | object {properties : List (String × Bool × TypeExpr)}
    (hproperties : ∀ property ∈ properties, Printable property.2.2) : Printable (object properties)
  | array {element : TypeExpr} (helement : Printable element) : Printable (array element)
  | tuple {elements : List (Bool × TypeExpr)}
      (helements : ∀ element ∈ elements, Printable element.2) :
    Printable (tuple elements)
  | function {parameters : List (String × TypeExpr)} {returns : TypeExpr}
    (hnames : ∀ parameter ∈ parameters, isName parameter.1 = true)
    (hparameters : ∀ parameter ∈ parameters, Printable parameter.2) (hreturns : Printable returns) :
    Printable (function parameters returns)
  | join (operator : Operator) {members : List TypeExpr} (hne : members ≠ [])
    (hmembers : ∀ member ∈ members, Printable member) : Printable (operator.join members)
  | parenthesized {inner : TypeExpr} (hinner : Printable inner) : Printable (parenthesized inner)

/-! ## Flat types -/

namespace Operator

/-- Whether a type is joined with the operator. -/
def Joins (operator : Operator) (type : TypeExpr) : Prop := ∃ members, type = operator.join members

theorem join_injective {operator operator' : Operator} {members members' : List TypeExpr}
    (h : operator.join members = operator'.join members') :
    operator = operator' ∧ members = members' := by
  cases operator <;> cases operator' <;> cases h <;> exact ⟨rfl, rfl⟩

theorem members_join (operator : Operator) (members : List TypeExpr) :
    operator.members (operator.join members) = members := by
  cases operator <;> rfl

theorem members_of_not_joins {operator : Operator} {type : TypeExpr} (h : ¬ operator.Joins type) :
    operator.members type = [type] := by
  unfold members
  split
  · exact absurd ⟨_, rfl⟩ h
  · exact absurd ⟨_, rfl⟩ h
  · rfl

theorem collapse_of_length {operator : Operator} {members : List TypeExpr}
    (h : members.length ≠ 1) : operator.collapse members = operator.join members := by
  unfold collapse
  split
  · exact absurd rfl h
  · rfl

/-- Members that are not joined with the operator are the members of what they are joined to. -/
theorem members_collapse {operator : Operator} {members : List TypeExpr}
    (h : ∀ member ∈ members, ¬ operator.Joins member) :
    operator.members (operator.collapse members) = members := by
  by_cases hlength : members.length = 1
  · -- joined to itself, the member would be taken apart if it were a join with the operator
    obtain ⟨member, rfl⟩ := List.length_eq_one_iff.mp hlength
    exact members_of_not_joins (h member List.mem_cons_self)
  · rw [collapse_of_length hlength, members_join]

end Operator

/-- Types with no join of one member, and no join directly in a join with the same operator. -/
inductive Flat : TypeExpr → Prop
  | single {type : TypeExpr} (h : ∀ operator : Operator, ¬ operator.Joins type) : Flat type
  | join (operator : Operator) {members : List TypeExpr} (hlength : members.length ≠ 1)
    (hmembers : ∀ member ∈ members, Flat member)
    (hjoins : ∀ member ∈ members, ¬ operator.Joins member) : Flat (operator.join members)

theorem Flat.of_join {operator : Operator} {type : TypeExpr} {members : List TypeExpr}
    (h : Flat type) (htype : type = operator.join members) :
    members.length ≠ 1 ∧ ∀ member ∈ members, Flat member ∧ ¬ operator.Joins member := by
  cases h with
  | single hnot => exact absurd ⟨members, htype⟩ (hnot operator)
  | join operator' hlength hmembers hjoins =>
    obtain ⟨rfl, rfl⟩ := Operator.join_injective htype
    exact ⟨hlength, fun member h => ⟨hmembers member h, hjoins member h⟩⟩

/-- The members of a flat type are flat and not joined with the operator. -/
theorem Flat.of_mem_members {operator : Operator} {type member : TypeExpr} (h : Flat type)
    (hmember : member ∈ operator.members type) : Flat member ∧ ¬ operator.Joins member := by
  by_cases hjoins : operator.Joins type
  · obtain ⟨members, htype⟩ := hjoins
    rw [htype, Operator.members_join] at hmember
    exact (h.of_join htype).2 member hmember
  · -- the only member is the type itself
    rw [Operator.members_of_not_joins hjoins, List.mem_singleton] at hmember
    exact hmember ▸ ⟨h, hjoins⟩

/-- The members of a flat type make up the type. -/
theorem Flat.collapse_members {type : TypeExpr} (h : Flat type) (operator : Operator) :
    operator.collapse (operator.members type) = type := by
  by_cases hjoins : operator.Joins type
  · obtain ⟨members, htype⟩ := hjoins
    rw [htype, Operator.members_join, Operator.collapse_of_length (h.of_join htype).1]
  · rw [Operator.members_of_not_joins hjoins]
    rfl

theorem Flat.collapse {operator : Operator} {members : List TypeExpr}
    (h : ∀ member ∈ members, Flat member ∧ ¬ operator.Joins member) :
    Flat (operator.collapse members) := by
  by_cases hlength : members.length = 1
  · obtain ⟨member, rfl⟩ := List.length_eq_one_iff.mp hlength
    exact (h member List.mem_cons_self).1
  · rw [Operator.collapse_of_length hlength]
    exact .join operator hlength (fun member hmember => (h member hmember).1) fun member hmember =>
      (h member hmember).2

theorem Flat.of_other {type : TypeExpr} (hunion : ∀ members, type ≠ union members)
    (hintersection : ∀ members, type ≠ intersection members) : Flat type := by
  refine .single fun operator hjoins => ?_
  obtain ⟨members, h⟩ := hjoins
  cases operator with
  | union => exact hunion members h
  | intersection => exact hintersection members h

/-- The members of canonical types, joined at one level, are flat and not joined with the
operator. -/
theorem flat_of_mem_flatMap {operator : Operator} {members : List TypeExpr}
    (h : ∀ member ∈ members, Flat member.canonical) :
    ∀ member ∈ (members.map canonical).flatMap operator.members, Flat member ∧
    ¬ operator.Joins member := by
  intro member hmember
  obtain ⟨type, htype, hmember⟩ := List.mem_flatMap.mp hmember
  obtain ⟨source, hsource, rfl⟩ := List.mem_map.mp htype
  exact (h source hsource).of_mem_members hmember

/-- Canonical types are flat. -/
theorem Printable.flat_canonical {type : TypeExpr} (h : Printable type) : Flat type.canonical := by
  induction h with
  | keyword | literal | reference | object | array | tuple | function =>
    -- of these the outermost form stays, and it is no join
    rw [canonical]
    exact .of_other (fun _ => TypeExpr.noConfusion) fun _ => TypeExpr.noConfusion
  | join operator _ _ ih =>
    rw [canonical_join]
    exact .collapse (flat_of_mem_flatMap ih)
  | parenthesized _ ih => rwa [canonical]

/-- Members of a canonical join are those of its members. -/
theorem members_canonical_join {operator : Operator} {members : List TypeExpr}
    (h : ∀ member ∈ members, Flat member.canonical) :
    operator.members (operator.join members).canonical =
      (members.map canonical).flatMap operator.members := by
  rw [canonical_join]
  exact Operator.members_collapse fun member hmember => (flat_of_mem_flatMap h member hmember).2

end TypeExpr

end TypeGraph
