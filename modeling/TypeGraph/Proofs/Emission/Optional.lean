import TypeGraph.Proofs.Emission.Wrapping
import TypeGraph.Proofs.SchemaGraph.Usable
import TypeGraph.Proofs.TypeExpr.Levels
import TypeGraph.Proofs.Validator.Levels

/-!
# Optional properties

Each target has a mark of its own for a property that may be left out: a sign in the signature, a
call around the validator, a schema around the schema. The targets read the mark off the node of the
property in different ways, and do not agree on every node. A property that admits nothing but
`undefined` is marked in a signature, but elsewhere only unions are asked for the mark, and TypeBox
marks `undefined` only as the member of one. And an intersection of one member is written in Zod as
the member, with the marks that the member has.

Main results:

* `optional_agrees`: the marks of all properties of an object, in every target.
* `undefinedProperty_differs`: properties on which the targets do not agree.
-/

namespace TypeGraph

/-! ## Marks -/

/-- The item has exactly one mark around it if it is `marked`, and none otherwise. A mark is taken
off by `unmark?`. -/
def Carries {α : Type} (unmark? : α → Option α) (marked : Bool) (item : α) : Prop :=
  if marked then ∃ inner, unmark? item = some inner ∧ unmark? inner = none else unmark? item = none

/-- What is written for properties, one by one, under their names. -/
abbrev PropertyWise {α : Type} (R : α → Node → Prop) (written : List (String × α))
    (shape : List (String × Node)) : Prop :=
  List.Forall₂ (fun property entry => property.1 = entry.1 ∧ R property.2 entry.2) written shape

/-- Every value that a computation gives has the property. -/
abbrev Gives {ε α : Type} (P : α → Prop) (result : Except ε α) : Prop :=
  ∀ value, result = .ok value → P value

namespace Node

variable {node left : Node}

/-- A node without the unions and intersections of one member around it. -/
def core : Node → Node
  | union member [] => core member
  | intersection member [] => core member
  | node => node

/-- What is left of an optional node is kept when the node is normalized. -/
theorem normalize_of_isOptional (h : node.isOptional = true) :
    node.normalize =
      match node.withoutUndefined with
      | none => undefined
      | some left => union left.normalize [undefined] := by
  induction node using inductionOnChildren with
  | step node ih =>
    cases node with
    | union first rest =>
      cases rest with
      | nil =>
        -- a member on its own is optional if the union is
        have hfirst : first.isOptional = true := by
          rw [isOptional, anyOptional, Bool.or_false] at h
          exact h
        rw [normalize, Wraps.withoutUndefined_single hfirst]
        exact ih first List.mem_cons_self hfirst
      | cons second rest =>
        refine ((normalize_union first second rest).trans (if_pos h)).trans ?_
        cases (union first (second :: rest)).withoutUndefined <;> rfl
    | primitive kind =>
      cases kind with
      | undefined => rw [normalize]; rfl
      | _ => cases h
    | _ => cases h

end Node

/-! ## TypeBox -/

namespace Validator.TypeBox

variable {definitions : DefinitionMap}

/-- The expression in the mark, `Type.Optional(inner)`. -/
def unmark? : Expr → Option Expr
  | .call (.identifier "Type") "Optional" [inner] => some inner
  | _ => none

/-- Outside properties, nothing is marked. -/
theorem unmark?_ofNode (node : Node) : Gives (unmark? · = none) (ofNode definitions node) := by
  refine fun expr hexpr => ofNode_induction (motive := fun expr _ => unmark? expr = none) ?_ hexpr
  -- the method `Optional` is called in properties only
  intro expr node hlevel
  cases hlevel with
  | @primitive expr kind written =>
    cases kind with
    | bigint => cases written
    | _ =>
      cases written
      rfl
  | @literal expr value written =>
    cases value with
    | bigint => cases written
    | _ =>
      cases written
      rfl
  | single inside => exact inside
  | _ => rfl

/-- The validator of a property has the mark if the node is optional and not `undefined` itself. -/
def Marks (written : Expr) (node : Node) : Prop :=
  (node ≠ .undefined → Carries unmark? node.isOptional written) ∧
    (node = .undefined → unmark? written = none)

theorem Fills.marks {expr : Expr} {node : Node}
    (h : Fills (fun expr part => ofNode definitions part = .ok expr) expr node) :
    Marks expr node := by
  -- the mark is around a validator that is written as outside properties
  cases h with
  | unmarked required whole =>
    have hnone := unmark?_ofNode node expr whole
    refine ⟨fun hundefined => ?_, fun _ => hnone⟩
    rw [← isOptionalUnion_eq_isOptional hundefined, required]
    exact hnone
  | vacant optional nothing =>
    refine ⟨fun hundefined => ?_, ?_⟩
    · rw [← isOptionalUnion_eq_isOptional hundefined, optional]
      exact ⟨_, rfl, rfl⟩
    · rintro rfl
      cases optional
  | @marked inner _ content _ optional left part =>
    refine ⟨fun hundefined => ?_, ?_⟩
    · rw [← isOptionalUnion_eq_isOptional hundefined, optional]
      exact ⟨inner, rfl, unmark?_ofNode content inner part⟩
    · rintro rfl
      cases optional

end Validator.TypeBox

/-! ## Zod -/

namespace Validator.Zod

variable {definitions : DefinitionMap} {node : Node}

/-- The expression before the mark, `inner.optional()`. -/
def unmark? : Expr → Option Expr
  | .call inner "optional" [] => some inner
  | _ => none

/-- An intersection of one member is written as the member. -/
theorem ofNode_intersection_single (member : Node) :
    ofNode definitions (.intersection member []) = ofNode definitions member := by
  rw [ofNode, ofAll]
  cases ofNode definitions member <;> rfl

theorem unmark?_conjunction (first second : Expr) (rest : List Expr) :
    unmark? (conjunction first (second :: rest)) = none := by
  induction rest generalizing first second with
  | nil => rfl
  | cons third rest ih => exact ih (.call first "and" [second]) third

/-- A node that is not optional, inside unions and intersections of one member, is not marked. -/
theorem unmark?_of_required (node : Node) (h : node.core.isOptional = false) :
    Gives (unmark? · = none) (ofNode definitions node) := by
  refine fun expr hexpr => ofNode_induction
    (motive := fun expr node => node.core.isOptional = false → unmark? expr = none) ?_ hexpr h
  intro expr node hlevel hrequired
  cases hlevel with
  | primitive kind => cases kind <;> rfl
  | single inside =>
    rw [Node.core] at hrequired
    exact inside hrequired
  | optional left =>
    -- a union of several members is its own core
    rcases (Node.union _ (_ :: _)).presence_cases with ⟨-, hp⟩ | ⟨ho, -⟩ | ⟨_, _, ho, -⟩
    · cases hp.symm.trans left
    · cases ho.symm.trans hrequired
    · cases ho.symm.trans hrequired
  | @intersection head _ _ _ inside members =>
    cases members with
    | nil =>
      rw [Node.core] at hrequired
      exact inside hrequired
    | @cons second _ others =>
      -- the last call around several members is that of `and`
      exact unmark?_conjunction head second others
  | procedure arguments => cases arguments <;> rfl
  | _ => rfl

/-- The validator of a property has the mark if the node is optional and something is left of it,
unless what is left is written as an optional member. -/
def Marks (written : Expr) (node : Node) : Prop :=
  match node.withoutUndefined with
  | none => unmark? written = none
  | some left => left.core.isOptional = false → Carries unmark? node.isOptional written

theorem marks_ofNode (node : Node) : Gives (Marks · node) (ofNode definitions node) := by
  unfold Marks
  by_cases hrequired : node.isOptional = false
  · -- the whole node is left
    rw [Node.withoutUndefined_of_required hrequired, hrequired]
    exact fun expr hexpr hcore => unmark?_of_required node hcore expr hexpr
  · rw [Bool.not_eq_false] at hrequired
    intro expr hexpr
    cases level_ofNode hexpr with
    | primitive kind =>
      cases kind with
      | undefined => rfl
      | _ => cases hrequired
    | @single _ member inside =>
      have hmember : member.isOptional = true := by
        rw [Node.isOptional, Node.anyOptional, Bool.or_false] at hrequired
        exact hrequired
      rw [Node.Wraps.withoutUndefined_single hmember, hrequired, ← hmember]
      exact marks_ofNode member expr inside
    | @optional inner _ _ _ content _ left part =>
      rcases (Node.union _ (_ :: _)).presence_cases with
        ⟨-, hp⟩ | ⟨-, -, hp⟩ | ⟨kept, _, ho, hkept, hp⟩
      · cases hp.symm.trans left
      · cases hp.symm.trans left
      · cases hp.symm.trans left
        rw [hkept, ho]
        exact fun hcore => ⟨inner, rfl, unmark?_of_required content hcore inner part⟩
    | union unmarked members =>
      rcases (Node.union _ (_ :: _)).presence_cases with
        ⟨ho, -⟩ | ⟨-, hnothing, -⟩ | ⟨content, smaller, -, -, hp⟩
      · cases ho.symm.trans hrequired
      · rw [hnothing]
        rfl
      · exact absurd hp (unmarked content smaller)
    | _ => cases hrequired
  termination_by sizeOf node

end Validator.Zod

/-! ## Schemas -/

namespace SchemaGraph

variable {graph : SchemaGraph} {id : SchemaId} {node : Node}

/-- The schema inside an optional one. -/
def unmark? (graph : SchemaGraph) (id : SchemaId) : Option SchemaId :=
  match graph.get id with
  | .optional inner => some inner
  | _ => none

theorem unmark?_of_represents (h : graph.Represents [id] [node])
    (hrequired : node.isOptional = false) : graph.unmark? id = none := by
  unfold unmark?
  cases h with
  | level _ _ level =>
    generalize graph.get id = schema at level
    cases level with
    | optional inner content =>
      -- it would stand for an optional node
      rw [Node.isOptional_union, List.any_eq_false] at hrequired
      exact absurd rfl (hrequired .undefined (by simp))
    | _ => rfl
  | reference _ _ schema => rw [schema]

/-- The schema of a property is optional, once, if the node is and something is left of it. -/
def Marks (graph : SchemaGraph) (id : SchemaId) (node : Node) : Prop :=
  Carries graph.unmark? (node.isOptional && node.withoutUndefined.isSome) id

theorem marks_of_represents (h : graph.Represents [id] [node.normalize]) : graph.Marks id node := by
  unfold Marks Carries
  cases hoptional : node.isOptional with
  | false =>
    rw [← Node.isOptional_normalize] at hoptional
    exact unmark?_of_represents h hoptional
  | true =>
    rw [Node.normalize_of_isOptional hoptional] at h
    cases hleft : node.withoutUndefined with
    | none =>
      rw [hleft] at h
      unfold unmark?
      cases h with
      | level _ _ level =>
        generalize graph.get id = schema at level
        cases level
        rfl
    | some left =>
      -- the schema stands for what is left together with `undefined`
      have hrequired :=
        (Node.isOptional_normalize left).trans (Node.isOptional_of_withoutUndefined hleft)
      rw [hleft] at h
      cases h with
      | level _ _ level inner =>
        generalize hschema : graph.get id = schema at level
        cases level with
        | optional content =>
          refine ⟨content, ?_, unmark?_of_represents inner hrequired⟩
          unfold unmark?
          rw [hschema]
        | union ids first second rest required =>
          -- a union that is not optional has no `undefined` in it
          rw [Node.isOptional_union, List.any_eq_false] at required
          exact absurd rfl (required .undefined (by simp))

/-- The schema of an object has the schemas of its properties. -/
theorem written_of_represents {shape : OrderedMap String Node}
    (h : graph.Represents [id] [(Node.object shape.entries).normalize]) :
    ∃ properties : OrderedMap String SchemaId, graph.get id = .object properties ∧
      PropertyWise (fun id node => graph.Represents [id] [node.normalize]) properties.entries
        shape.entries := by
  have hnames : ((shape.entries.map fun property =>
      (property.1, property.2.normalize)).map Prod.fst).Nodup := by
    rw [List.map_map]
    exact shape.nodup
  -- names are distinct, so normalizing keeps the properties one by one
  rw [Node.normalize, Node.normalizeShape_eq, Node.objectOf, Entries.ofList_eq_self hnames] at h
  cases h with
  | level _ _ level inner =>
    generalize graph.get id = schema at level
    cases level with
    | object properties _ names =>
      refine ⟨properties, rfl, ?_⟩
      have hparts := Represents.iff_forall₂.mp inner
      rw [List.map_map, List.forall₂_map_right_iff] at hparts
      have hvalues : List.Forall₂ (fun id node => graph.Represents [id] [node.normalize])
          (properties.entries.map Prod.snd) (shape.entries.map Prod.snd) :=
        List.forall₂_map_right_iff.mpr hparts
      rw [List.map_map] at names
      exact Entries.forall₂_of_values names hvalues

end SchemaGraph

namespace SchemaDraft

open SchemaGraph

variable {definitions : DefinitionMap} {opened : List LazyId} {draft : SchemaDraft}

/-- A lazy that is filled with anything may count as opened. -/
theorem Wired.fill_any (h : Wired definitions opened draft) (slot : LazyId) (target : SchemaId) :
    Wired definitions (slot :: opened) { draft with graph := draft.graph.fill slot target } := by
  have hgrows := draft.graph.grows_fill slot target
  refine ⟨?_, ?_, ?_⟩
  · intro identifier handle hh
    obtain ⟨hbound, slot', hget, hname⟩ := h.handles hh
    exact ⟨hbound, slot', hget, hgrows.name hname⟩
  · intro slot' name hname
    exact h.lazies ((draft.graph.name?_fill slot target slot').symm.trans hname)
  · intro slot' name hname hopened
    -- what is open may have any target, and the other lazies keep theirs
    rw [List.mem_cons, not_or] at hopened
    have hname' := (draft.graph.name?_fill slot target slot').symm.trans hname
    obtain ⟨target', body, htarget, hbody, hrepresents⟩ := h.bodies hname' hopened.2
    refine ⟨target', body, ?_, hbody, hrepresents.mono hgrows⟩
    rw [← htarget]
    unfold target? SchemaGraph.fill
    rw [Array.getElem?_modify, if_neg (Ne.symm hopened.1)]

/-- Builds that fail leave their lazies opened, and the rest wired. -/
theorem exists_wired_buildEach (definitions : DefinitionMap) (nodes : List Node) :
    ∃ opened, Wired definitions opened (buildEach definitions {} nodes).2 := by
  have hkeeps (node : Node) : Keeps (fun draft => ∃ opened, Wired definitions opened draft)
      (buildWithin definitions definitions.size node) := by
    refine keeps_buildWithin ?_ ?_ ?_ _ node
    · rintro draft schema - ⟨opened, hwired⟩
      exact ⟨opened, hwired.add schema⟩
    · rintro draft identifier - hnew ⟨opened, hwired⟩
      exact ⟨_, hwired.enter hnew⟩
    · rintro before draft target - ⟨opened, hwired⟩
      exact ⟨_, hwired.fill_any _ target⟩
  exact buildEach_keeps hkeeps ⟨[], .empty⟩ nodes

/-- Whatever has been built before, a build that succeeds makes a schema that stands for the
node. -/
theorem represents_of_build {earlier : List Node} {node : Node} {id : SchemaId}
    (h : (buildEach definitions {} earlier).2.build definitions node = (.ok id, draft)) :
    draft.graph.Represents [id] [node.normalize] := by
  obtain ⟨opened, hwired⟩ := exists_wired_buildEach definitions earlier
  exact (realizes_buildWithin _ node hwired h).2

end SchemaDraft

/-! ## All targets -/

/-- The marks of the properties of an object. A signature is marked if the node of the property is
optional, a TypeBox validator if it is besides not `undefined` itself. In Zod and in schemas,
whatever has been built before, a property is marked, once, if its node is optional and something is
left of it, except that Zod writes an intersection of one member as its member. -/
theorem optional_agrees (definitions : DefinitionMap) (shape : OrderedMap String Node) :
    (∀ type, TypeExpr.ofNode definitions (.object shape.entries) = .ok type →
      ∃ properties, type = .object properties ∧
        PropertyWise (fun written node => written.1 = node.isOptional) properties shape.entries) ∧
    (∀ expr, Validator.TypeBox.ofNode definitions (.object shape.entries) = .ok expr →
      ∃ properties, expr = Validator.TypeBox.method "Object" [.object properties] ∧
        PropertyWise Validator.TypeBox.Marks properties shape.entries) ∧
    (∀ expr, Validator.Zod.ofNode definitions (.object shape.entries) = .ok expr →
      ∃ properties, expr = Validator.Zod.method "object" [.object properties] ∧
        PropertyWise Validator.Zod.Marks properties shape.entries) ∧
    (∀ member, Validator.Zod.ofNode definitions (.intersection member []) =
      Validator.Zod.ofNode definitions member) ∧
    (∀ earlier root draft,
      (SchemaDraft.buildEach definitions {} earlier).2.build definitions (.object shape.entries) =
        (.ok root, draft) →
      ∃ properties : OrderedMap String SchemaId, draft.graph.get root = .object properties ∧
        PropertyWise draft.graph.Marks properties.entries shape.entries) := by
  refine ⟨?_, ?_, ?_, fun member => Validator.Zod.ofNode_intersection_single member, ?_⟩
  · -- signatures
    intro type htype
    cases TypeExpr.level_ofNode htype with
    | object slots => exact ⟨_, rfl, slots.imp fun _ _ hslot => ⟨hslot.1, hslot.2.mark⟩⟩
  · -- TypeBox, property by property
    intro expr hexpr
    cases Validator.TypeBox.level_ofNode hexpr with
    | object slots => exact ⟨_, rfl, slots.imp fun _ _ hslot => ⟨hslot.1, hslot.2.marks⟩⟩
  · -- Zod, property by property
    intro expr hexpr
    cases Validator.Zod.level_ofNode hexpr with
    | object slots =>
      refine ⟨_, rfl, slots.imp fun property entry hslot => ⟨hslot.1, ?_⟩⟩
      exact Validator.Zod.marks_ofNode entry.2 property.2 hslot.2
  · -- the schema of the object has a schema for each property
    intro earlier root draft hbuilt
    obtain ⟨properties, hget, hwritten⟩ :=
      SchemaGraph.written_of_represents (SchemaDraft.represents_of_build hbuilt)
    refine ⟨properties, hget, hwritten.imp fun property entry hproperty => ⟨hproperty.1, ?_⟩⟩
    exact SchemaGraph.marks_of_represents hproperty.2

/-- Two properties that must be there, and one between them that may be left out. -/
def person : OrderedMap String Node :=
  ⟨[("name", .primitive .string), ("age", .union (.primitive .number) [.undefined]),
    ("tags", .array (.primitive .string))], by decide⟩

/-- A person is written with marks that agree, in every target. -/
theorem person_agrees :
    (∃ properties, TypeExpr.ofNode .empty (.object person.entries) = .ok (.object properties) ∧
      PropertyWise (fun written node => written.1 = node.isOptional) properties person.entries) ∧
    (∃ properties, Validator.TypeBox.ofNode .empty (.object person.entries) =
        .ok (Validator.TypeBox.method "Object" [.object properties]) ∧
      PropertyWise Validator.TypeBox.Marks properties person.entries) ∧
    (∃ properties, Validator.Zod.ofNode .empty (.object person.entries) =
        .ok (Validator.Zod.method "object" [.object properties]) ∧
      PropertyWise Validator.Zod.Marks properties person.entries) ∧
    ∃ draft properties, ({} : SchemaDraft).build .empty (.object person.entries) = (.ok 5, draft) ∧
      draft.graph.get 5 = .object properties ∧
      PropertyWise draft.graph.Marks properties.entries person.entries := by
  have htype : TypeExpr.ofNode .empty (.object person.entries) =
      .ok (.object [("name", false, .keyword .string), ("age", true, .keyword .number),
        ("tags", false, .array (.keyword .string))]) := by
    cbv
  have htypeBox : Validator.TypeBox.ofNode .empty (.object person.entries) =
      .ok (Validator.TypeBox.method "Object" [.object [
        ("name", Validator.TypeBox.method "String" []),
        ("age", Validator.TypeBox.method "Optional" [Validator.TypeBox.method "Number" []]),
        ("tags", Validator.TypeBox.method "Array" [Validator.TypeBox.method "String" []])]]) := by
    cbv
  have hzod : Validator.Zod.ofNode .empty (.object person.entries) =
      .ok (Validator.Zod.method "object" [.object [
        ("name", Validator.Zod.method "string" []),
        ("age", .call (Validator.Zod.method "number" []) "optional" []),
        ("tags", Validator.Zod.method "array" [Validator.Zod.method "string" []])]]) := by
    cbv
  have hage (depth : Nat) :
      SchemaDraft.buildWithin .empty depth (.union (.primitive .number) [.undefined]) =
        (do
          let number ← SchemaDraft.buildWithin .empty depth (.primitive .number)
          SchemaDraft.add (.optional number)) := by
    rw [SchemaDraft.buildWithin_union]
    rfl
  have hbuilt : (SchemaDraft.buildEach .empty {} []).2.build .empty (.object person.entries) =
      (.ok 5, (({} : SchemaDraft).build .empty (.object person.entries)).2) := by
    refine Prod.ext ?_ rfl
    simp only [SchemaDraft.buildEach, SchemaDraft.build, SchemaDraft.buildWithin,
      SchemaDraft.buildShape, person, hage]
    rfl
  obtain ⟨hsignatures, htypeBoxMarks, hzodMarks, -, hschemas⟩ := optional_agrees .empty person
  obtain ⟨types, htypes, htypesMarked⟩ := hsignatures _ htype
  obtain ⟨exprs, hexprs, hexprsMarked⟩ := htypeBoxMarks _ htypeBox
  obtain ⟨others, hothers, hothersMarked⟩ := hzodMarks _ hzod
  obtain ⟨properties, hget, hproperties⟩ := hschemas [] _ _ hbuilt
  refine ⟨⟨types, ?_, htypesMarked⟩, ⟨exprs, ?_, hexprsMarked⟩, ⟨others, ?_, hothersMarked⟩,
    _, properties, hbuilt, hget, hproperties⟩
  · rw [htype, htypes]
  · rw [htypeBox, hexprs]
  · rw [hzod, hothers]

/-- A property that is `undefined` is optional, and is marked in its signature only. A property that
is an intersection of one optional member is not optional, and is marked in Zod only. -/
theorem undefinedProperty_differs :
    Node.undefined.isOptional = true ∧
    TypeExpr.ofNode .empty (.object [("gone", .undefined)]) =
      .ok (.object [("gone", true, .keyword .undefined)]) ∧
    Validator.TypeBox.ofNode .empty (.object [("gone", .undefined)]) =
      .ok (Validator.TypeBox.method "Object"
        [.object [("gone", Validator.TypeBox.method "Undefined" [])]]) ∧
    ¬ Carries Validator.TypeBox.unmark? true (Validator.TypeBox.method "Undefined" []) ∧
    Validator.Zod.ofNode .empty (.object [("gone", .undefined)]) =
      .ok (Validator.Zod.method "object"
        [.object [("gone", Validator.Zod.method "undefined" [])]]) ∧
    ¬ Carries Validator.Zod.unmark? true (Validator.Zod.method "undefined" []) ∧
    (∃ draft properties,
      ({} : SchemaDraft).build .empty (.object [("gone", .undefined)]) = (.ok 1, draft) ∧
      draft.graph.get 1 = .object properties ∧
      properties.entries = [("gone", 0)] ∧ ¬ Carries draft.graph.unmark? true 0) ∧
    (Node.intersection (.union (.primitive .string) [.undefined]) []).isOptional = false ∧
    Validator.Zod.ofNode .empty
        (.object [("name", .intersection (.union (.primitive .string) [.undefined]) [])]) =
      .ok (Validator.Zod.method "object"
        [.object [("name", .call (Validator.Zod.method "string" []) "optional" [])]]) ∧
    ¬ Carries Validator.Zod.unmark? false
      (.call (Validator.Zod.method "string" []) "optional" []) := by
  have hunmarked {α : Type} {unmark? : α → Option α} {item : α} (h : unmark? item = none) :
      ¬ Carries unmark? true item := by
    rintro ⟨inner, hinner, -⟩
    cases h.symm.trans hinner
  have hmarked {α : Type} {unmark? : α → Option α} {item inner : α}
      (h : unmark? item = some inner) :
      ¬ Carries unmark? false item := fun hnone => by cases h.symm.trans hnone
  refine ⟨rfl, by cbv, by cbv, hunmarked rfl, by cbv, hunmarked rfl, ?_, rfl, by cbv, hmarked rfl⟩
  -- the graph holds `undefined` and the object, and the builder has met no definition
  refine ⟨⟨⟨#[.primitive .undefined, .object ⟨[("gone", 0)], by decide⟩], #[]⟩, .empty⟩,
    _, ?_, rfl, rfl,
    hunmarked rfl⟩
  simp only [SchemaDraft.build, SchemaDraft.buildWithin, SchemaDraft.buildShape]
  rfl

end TypeGraph
