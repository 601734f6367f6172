import TypeGraph.Proofs.TypeExpr.Levels

/-!
# Tuples with optional slots

TypeScript takes a tuple type only if no slot that must be filled comes behind one that may be
empty. Slots are marked one by one, by whether their nodes are optional, and their order stays as it
is: a tuple in the type of a node is legal exactly if the slots of the tuple it comes from are in
that order already.

Main results:

* `TypeExpr.legalTuples_ofNode`: the type of a node is legal in all of its tuples if and only if no
  tuple in the node has an optional slot before one that is not.
* `TypeExpr.optionalBeforeRequired_illegal`: a tuple that is written, and is no TypeScript.
-/

namespace TypeGraph

/-! ## Slots in order -/

/-- Behind a mark there are only marks. -/
def MarksLast (marks : List Bool) : Prop :=
  marks.Pairwise fun mark later => mark = true → later = true

instance (marks : List Bool) : Decidable (MarksLast marks) :=
  inferInstanceAs (Decidable (marks.Pairwise fun mark later => mark = true → later = true))

namespace Node

/-- In every tuple in the node, the optional slots come last. -/
def OrderedTuples (node : Node) : Prop :=
  ∀ first rest, Occurs (tuple first rest) node → MarksLast ((first :: rest).map isOptional)

theorem orderedTuples_tuple {first : Node} {rest : List Node} :
    (tuple first rest).OrderedTuples ↔
      MarksLast ((first :: rest).map isOptional) ∧ ∀ slot ∈ first :: rest, slot.OrderedTuples := by
  constructor
  · intro h
    exact ⟨h first rest .self, fun slot hs first rest ho => h first rest (.child hs ho)⟩
  · rintro ⟨hself, hslots⟩ first' rest' ho
    rcases occurs_iff.mp ho with heq | ⟨slot, hs, ho⟩
    · cases heq
      exact hself
    · exact hslots slot hs first' rest' ho

/-- Other nodes are in order if their children are. -/
theorem orderedTuples_iff {node : Node} (hkind : node.kind ≠ .tuple) :
    node.OrderedTuples ↔ ∀ child ∈ node.children, child.OrderedTuples := by
  constructor
  · exact fun h child hc first rest ho => h first rest (.child hc ho)
  · intro h first rest ho
    rcases occurs_iff.mp ho with rfl | ⟨child, hc, ho⟩
    · exact absurd rfl hkind
    · exact h child hc first rest ho

theorem orderedTuples_of_leaf {node : Node} (hkind : node.kind ≠ .tuple)
    (hchildren : node.children = []) : node.OrderedTuples := by
  rw [orderedTuples_iff hkind, hchildren]
  exact fun _ hc => absurd hc List.not_mem_nil

/-- Taking `undefined` away leaves the tuples in a node as they are. -/
theorem orderedTuples_withoutUndefined (node : Node) :
    (∀ kept, node.withoutUndefined = some kept → kept.OrderedTuples) ↔ node.OrderedTuples := by
  -- a tuple that is out of order is in a member, and members other than `undefined` stay
  have hunion (first : Node) (rest : List Node) :
      ¬ (union first rest).OrderedTuples ↔ ∃ member ∈ first :: rest, ¬ member.OrderedTuples := by
    rw [orderedTuples_iff Kind.noConfusion, children]
    push Not
    rfl
  have hundefined : undefined.OrderedTuples := orderedTuples_of_leaf Kind.noConfusion rfl
  have hleft := exists_withoutUndefined_iff (P := fun node => ¬ node.OrderedTuples) hunion
    (not_not_intro hundefined) node
  rw [← not_iff_not, ← hleft]
  push Not
  rfl

end Node

namespace TypeExpr

variable {definitions : DefinitionMap} {type : TypeExpr}

/-! ## Parts of types -/

/-- The types directly inside a type. -/
def children : TypeExpr → List TypeExpr
  | keyword _ | literal _ => []
  | reference _ arguments => arguments
  | object properties => properties.map fun property => property.2.2
  | array element => [element]
  | tuple elements => elements.map Prod.snd
  | function parameters returns => parameters.map Prod.snd ++ [returns]
  | union members | intersection members => members
  | parenthesized inner => [inner]

/-- A type stands somewhere in another, or is the other. -/
inductive Occurs (part : TypeExpr) : TypeExpr → Prop where
  | self : Occurs part part
  | child {child type : TypeExpr} (mem : child ∈ type.children) (occurs : Occurs part child) :
      Occurs part type

/-- In every tuple in the type, no slot without the mark of an optional one comes after one with
it. -/
def LegalTuples (type : TypeExpr) : Prop :=
  ∀ elements, Occurs (tuple elements) type → MarksLast (elements.map Prod.fst)

theorem legalTuples_tuple {elements : List (Bool × TypeExpr)} :
    (tuple elements).LegalTuples ↔
      MarksLast (elements.map Prod.fst) ∧ ∀ element ∈ elements, element.2.LegalTuples := by
  constructor
  · intro h
    exact ⟨h elements .self,
      fun element he others ho => h others (.child (List.mem_map_of_mem he) ho)⟩
  · rintro ⟨hself, helements⟩ others (_ | ⟨hc, ho⟩)
    · exact hself
    · obtain ⟨element, he, rfl⟩ := List.mem_map.mp hc
      exact helements element he others ho

/-- Other types are legal if the types inside are. -/
theorem legalTuples_iff (h : ∀ elements, type ≠ tuple elements) :
    type.LegalTuples ↔ ∀ child ∈ type.children, child.LegalTuples := by
  constructor
  · exact fun htype child hc elements ho => htype elements (.child hc ho)
  · rintro hchildren elements (_ | ⟨hc, ho⟩)
    · exact absurd rfl (h elements)
    · exact hchildren _ hc elements ho

theorem legalTuples_keyword (k : Keyword) : (keyword k).LegalTuples :=
  (legalTuples_iff fun _ => TypeExpr.noConfusion).mpr fun _ hc => absurd hc List.not_mem_nil

theorem legalTuples_literal (value : Literal) : (literal value).LegalTuples :=
  (legalTuples_iff fun _ => TypeExpr.noConfusion).mpr fun _ hc => absurd hc List.not_mem_nil

theorem legalTuples_reference {name : String} {arguments : List TypeExpr} :
    (reference name arguments).LegalTuples ↔ ∀ argument ∈ arguments, argument.LegalTuples :=
  legalTuples_iff fun _ => TypeExpr.noConfusion

theorem legalTuples_name (name : String) : (reference name []).LegalTuples :=
  legalTuples_reference.mpr fun _ ha => absurd ha List.not_mem_nil

theorem legalTuples_function {types : List TypeExpr} {returns : TypeExpr} :
    (function (parametersOf types) returns).LegalTuples ↔
      (∀ type ∈ types, type.LegalTuples) ∧ returns.LegalTuples := by
  rw [legalTuples_iff fun _ => TypeExpr.noConfusion, children, map_snd_parametersOf,
    List.forall_mem_append, List.forall_mem_singleton]

theorem legalTuples_ofPrimitive (kind : Primitive) : (ofPrimitive kind).LegalTuples := by
  cases kind with
  | null => exact legalTuples_literal _
  | date | regexp => exact legalTuples_name _
  | _ => exact legalTuples_keyword _

theorem legalTuples_ofLiteral {value : Literal} (h : ofLiteral value = .ok type) :
    type.LegalTuples := by
  unfold ofLiteral at h
  split at h
  · split at h
    · cases h
      exact legalTuples_literal _
    · cases h
  · cases h
    exact legalTuples_literal _

/-! ## Legal types -/

/-- A type and a node are in order together. -/
abbrev Agrees (type : TypeExpr) (node : Node) : Prop := type.LegalTuples ↔ node.OrderedTuples

theorem Fills.agrees {slot : Bool × TypeExpr} {node : Node} (h : Fills Agrees slot node) :
    Agrees slot.2 node := by
  cases h with
  | required _ whole => exact whole
  | vacant _ nothing =>
    -- nothing is left, so there is no tuple in the node
    have hordered := (Node.orderedTuples_withoutUndefined node).mp fun kept hkept => by
      rw [nothing] at hkept
      cases hkept
    exact iff_of_true (legalTuples_keyword _) hordered
  | @optional type _ content _ left part =>
    have hpart : type.LegalTuples ↔ content.OrderedTuples := part
    rw [Agrees, hpart, ← Node.orderedTuples_withoutUndefined node]
    simp [left]

/-- A level is in order as its parts are, and a tuple has the marks of its slots. -/
theorem Level.agrees {node : Node} (h : Level definitions Agrees type node) : Agrees type node := by
  cases h with
  | primitive kind =>
    exact iff_of_true (legalTuples_ofPrimitive kind)
      (Node.orderedTuples_of_leaf Kind.noConfusion rfl)
  | literal written =>
    exact iff_of_true (legalTuples_ofLiteral written)
      (Node.orderedTuples_of_leaf Kind.noConfusion rfl)
  | reference defined =>
    exact iff_of_true (legalTuples_name _) (Node.orderedTuples_of_leaf Kind.noConfusion rfl)
  | array inside =>
    rw [Agrees, legalTuples_iff fun _ => TypeExpr.noConfusion,
      Node.orderedTuples_iff Kind.noConfusion]
    exact forall_mem_iff_of_forall₂ (.cons inside .nil)
  | set inside =>
    rw [Agrees, legalTuples_reference, Node.orderedTuples_iff Kind.noConfusion]
    exact forall_mem_iff_of_forall₂ (.cons inside .nil)
  | record keys values | map keys values =>
    rw [Agrees, legalTuples_reference, Node.orderedTuples_iff Kind.noConfusion]
    exact forall_mem_iff_of_forall₂ (.cons keys (.cons values .nil))
  | object slots =>
    rw [Agrees, legalTuples_iff fun _ => TypeExpr.noConfusion,
      Node.orderedTuples_iff Kind.noConfusion, children, Node.children, List.forall_mem_map,
      List.forall_mem_map]
    exact forall_mem_iff_of_forall₂ (slots.imp fun _ _ hslot => hslot.2.agrees)
  | single inside =>
    rw [Agrees, Node.orderedTuples_iff Kind.noConfusion, Node.children, List.forall_mem_singleton]
    exact inside
  | union members | intersection members =>
    rw [Agrees, legalTuples_iff fun _ => TypeExpr.noConfusion,
      Node.orderedTuples_iff Kind.noConfusion]
    exact forall_mem_iff_of_forall₂ members
  | procedure arguments =>
    rw [Agrees, legalTuples_function, Node.orderedTuples_iff Kind.noConfusion, Node.children,
      Option.toList_none, List.append_nil, and_iff_left (legalTuples_keyword _)]
    exact forall_mem_iff_of_forall₂ arguments
  | function arguments result =>
    rw [Agrees, legalTuples_function, Node.orderedTuples_iff Kind.noConfusion, Node.children,
      Option.toList_some, List.forall_mem_append, List.forall_mem_singleton]
    exact and_congr (forall_mem_iff_of_forall₂ arguments) result
  | tuple slots =>
    rw [Agrees, legalTuples_tuple, Node.orderedTuples_tuple]
    -- the marks of the type are those of the nodes
    have hmarks := map_eq_of_forall₂ (f := Prod.fst) (slots.imp fun _ _ hslot => hslot.mark.symm)
    rw [hmarks]
    exact and_congr_right fun _ =>
      forall_mem_iff_of_forall₂ (slots.imp fun _ _ hslot => hslot.agrees)

/-- The type of a node is legal in all of its tuples if and only if in every tuple in the node the
optional slots come last. -/
theorem legalTuples_ofNode {node : Node} (h : ofNode definitions node = .ok type) :
    type.LegalTuples ↔ node.OrderedTuples :=
  ofNode_induction (motive := Agrees) (fun _ _ hlevel => hlevel.agrees) h

/-- An array of pairs whose second slot may be empty is written with the mark at the end. -/
theorem optionalLast_legal :
    ofNode .empty
      (.array (.tuple (.primitive .string) [.union (.primitive .number) [.undefined]])) =
        .ok (array (tuple [(false, keyword .string), (true, keyword .number)])) ∧
      (array (tuple [(false, keyword .string), (true, keyword .number)])).LegalTuples := by
  have htype : ofNode .empty
        (.array (.tuple (.primitive .string) [.union (.primitive .number) [.undefined]])) =
      .ok (array (tuple [(false, keyword .string), (true, keyword .number)])) := by
    cbv
  refine ⟨htype, (legalTuples_ofNode htype).mpr ?_⟩
  have hmember (kind : Primitive) : (Node.primitive kind).OrderedTuples :=
    Node.orderedTuples_of_leaf Kind.noConfusion rfl
  have hunion : (Node.union (.primitive .number) [.undefined]).OrderedTuples := by
    rw [Node.orderedTuples_iff Kind.noConfusion]
    simp [Node.children, hmember]
  rw [Node.orderedTuples_iff Kind.noConfusion]
  simp [Node.children, Node.orderedTuples_tuple, hmember, hunion, MarksLast, Node.isOptional,
    Node.anyOptional]

/-- A pair whose first slot may be empty and whose second may not is written all the same. -/
theorem optionalBeforeRequired_illegal :
    ofNode .empty (.tuple (.union (.primitive .string) [.undefined]) [.primitive .number]) =
        .ok (tuple [(true, keyword .string), (false, keyword .number)]) ∧
      ¬ (tuple [(true, keyword .string), (false, keyword .number)]).LegalTuples := by
  constructor
  · cbv
  · rw [legalTuples_tuple]
    rintro ⟨hmarks, -⟩
    exact absurd hmarks (by decide)

end TypeExpr

end TypeGraph
