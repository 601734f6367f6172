import TypeGraph.Proofs.Extraction.Related

/-!
# The references of a level

Putting a level together makes no references and loses none: those of the node are those of the
nodes inside. Two conditions are behind the second half. There is a node for each type inside, and
no property has the name of another one, as the last of several properties with a name displaces the
others.

Main results:

* `Shape.occurs_of_build`: references come from inside.
* `Shape.occurs_build`: references from inside are there.
-/

namespace TypeGraph

/-! ## Slots and unions -/

namespace Node

variable {part : Node}

theorem Occurs.optional {node : Node} (h : Occurs part node) : Occurs part node.optional := by
  unfold Node.optional
  split
  · exact h
  · exact .child List.mem_cons_self h

theorem occurs_of_optional {identifier : String} {displayName : Option String} {node : Node}
    (h : Occurs (.reference identifier displayName) node.optional) :
    Occurs (.reference identifier displayName) node := by
  unfold Node.optional at h
  split at h
  · exact h
  · obtain ⟨child, hc, ho⟩ := (occurs_iff_of_kind (by simp [kind])).mp h
    rcases List.mem_cons.mp hc with rfl | hc
    · exact ho
    · obtain rfl := List.mem_singleton.mp hc
      rcases occurs_iff.mp ho with h | ⟨child, hc, -⟩
      · cases h
      · exact absurd hc List.not_mem_nil

theorem Occurs.unionOrSingle {nodes : List Node} {node : Node} (hm : node ∈ nodes)
    (h : Occurs part node) : ∃ union ∈ unionOrSingle? nodes, Occurs part union := by
  match nodes, hm with
  | [only], hm =>
    obtain rfl := List.mem_singleton.mp hm
    exact ⟨_, rfl, h⟩
  | first :: second :: rest, hm => exact ⟨_, rfl, .child hm h⟩

end Node

/-! ## Levels -/

namespace Shape

open Node (Occurs)

variable {identifier : String} {displayName : Option String}

/-- No reference comes from elsewhere than the given nodes. -/
def From (nodes : List Node) (node : Node) : Prop :=
  ∀ identifier displayName, Occurs (.reference identifier displayName) node →
    ∃ inner ∈ nodes, Occurs (.reference identifier displayName) inner

/-- No property has the name of another one. -/
def Distinct : Shape → Prop
  | object _ _ properties => (properties.map Property.name).Nodup
  | _ => True

theorem From.of_children {nodes : List Node} {node : Node} (hk : node.kind ≠ .reference)
    (h : ∀ child ∈ node.children, From nodes child) : From nodes node := by
  intro identifier displayName ho
  obtain ⟨child, hc, ho⟩ := (Node.occurs_iff_of_kind hk).mp ho
  exact h child hc identifier displayName ho

theorem From.of_mem {nodes : List Node} {node : Node} (h : node ∈ nodes) : From nodes node :=
  fun _ _ ho => ⟨node, h, ho⟩

theorem From.slot {nodes : List Node} {node : Node} (h : From nodes node) (optional : Bool) :
    From nodes (slot optional node) := by
  intro identifier displayName ho
  unfold Shape.slot at ho
  split at ho
  · exact h identifier displayName (Node.occurs_of_optional ho)
  · exact h identifier displayName ho

/-- The references of a level come from the nodes inside. -/
theorem occurs_of_build {shape : Shape} (hplain : shape.Plain) (text : Option String)
    (nodes : List Node) : From nodes (shape.build text nodes) := by
  -- where references come from is a relation of which the second side is left open
  have hcongruent : Congruent fun node (_ : Node) => From nodes node := by
    refine ⟨fun hkind _ hchildren => .of_children hkind fun child hc => ?_, fun h => h.slot true⟩
    obtain ⟨_, -, hchild⟩ := exists_of_mem_forall₂ hchildren hc
    exact hchild
  exact related_build hcongruent hplain text (List.forall₂_same.mpr fun node hn => .of_mem hn)

/-! ### Nothing is lost -/

variable {part node : Node}

theorem occurs_slot (optional : Bool) (h : Occurs part node) :
    Occurs part (slot optional node) := by
  unfold slot
  split
  · exact h.optional
  · exact h

theorem occurs_conjunction {parts : List Node} {node : Node} (hm : node ∈ parts)
    (h : Occurs part node) : Occurs part (conjunction parts) := by
  match parts, hm with
  | [only], hm =>
    obtain rfl := List.mem_singleton.mp hm
    exact h
  | first :: second :: rest, hm => exact .child hm h

theorem exists_function {signatures : List Signature} {nodes : List Node}
    (hlength : nodes.length = (callTypes signatures).length) (hm : node ∈ nodes) :
    ∃ function ∈ functions signatures nodes, node ∈ function.children := by
  -- induction on the signatures: the node is among those of the first one or behind them
  induction signatures generalizing nodes with
  | nil =>
    rw [List.length_eq_zero_iff.mp hlength] at hm
    exact absurd hm List.not_mem_nil
  | cons signature rest ih =>
    have hsplit : nodes.length = signature.parameters.length + 1 + (callTypes rest).length := by
      rw [hlength]
      simp only [callTypes, List.flatMap_cons, List.length_append, List.length_singleton]
    rw [← List.take_append_drop (signature.parameters.length + 1) nodes, List.mem_append] at hm
    rcases hm with hm | hm
    · refine ⟨_, List.mem_cons_self, ?_⟩
      have hlt : signature.parameters.length < nodes.length := by omega
      rw [List.take_succ_eq_append_getElem hlt, List.mem_append, List.mem_singleton] at hm
      rw [Node.children, List.mem_append]
      refine hm.imp id ?_
      rintro rfl
      rw [List.getElem?_eq_getElem hlt]
      exact List.mem_singleton_self _
    · obtain ⟨function, hf, hc⟩ := ih (by rw [List.length_drop]; omega) hm
      exact ⟨function, List.mem_cons_of_mem _ hf, hc⟩

theorem occurs_functions {signatures : List Signature} {nodes : List Node}
    (hlength : nodes.length = (callTypes signatures).length) (hm : node ∈ nodes)
    (h : Occurs part node) :
    ∃ union ∈ Node.unionOrSingle? (functions signatures nodes), Occurs part union := by
  obtain ⟨function, hf, hc⟩ := exists_function hlength hm
  exact (Occurs.child hc h).unionOrSingle hf

theorem occurs_indexRecords {index : Option (Node × TypeId)} {nodes : List Node}
    (hlength : nodes.length = (indexTypes index).length) (hm : node ∈ nodes)
    (h : Occurs part node) : ∃ record ∈ indexRecords index nodes, Occurs part record := by
  have hle : nodes.length ≤ index.toList.length := by
    rw [hlength, indexTypes]
    cases index <;> exact Nat.le_refl _
  obtain ⟨entry, -, hrecord⟩ := exists_mem_zipWith hle hm
  exact ⟨_, hrecord, .child (by simp [Node.children]) h⟩

theorem occurs_propertyObjects {properties : List Property} {nodes : List Node}
    (hlength : nodes.length = properties.length)
    (hdistinct : (properties.map Property.name).Nodup) (hm : node ∈ nodes)
    (h : Occurs part node) : ∃ object ∈ propertyObjects properties nodes, Occurs part object := by
  -- the entries have the names of the properties, one each
  have hnames : (propertiesOf properties nodes).map Prod.fst = properties.map Property.name := by
    rw [propertiesOf, List.map_zipWith]
    exact zipWith_left Property.name (Nat.le_of_eq hlength.symm)
  obtain ⟨property, hp, hentry⟩ := exists_mem_zipWith
    (f := fun property node => (property.name, slot property.optional node))
    (Nat.le_of_eq hlength) hm
  refine ⟨.objectOf (propertiesOf properties nodes), ?_, ?_⟩
  · rw [propertyObjects, if_neg]
    · exact List.mem_singleton_self _
    · rw [List.isEmpty_iff]
      exact List.ne_nil_of_mem hp
  · -- with distinct names nothing is displaced
    rw [Node.objectOf, Entries.ofList_eq_self (by rwa [hnames])]
    exact .child (List.mem_map_of_mem hentry) (occurs_slot _ h)

theorem occurs_parts {index : Option (Node × TypeId)} {signatures : List Signature}
    {properties : List Property} {nodes : List Node}
    (hlength : nodes.length = (object index signatures properties).inner.length)
    (hdistinct : (properties.map Property.name).Nodup) (hm : node ∈ nodes)
    (h : Occurs part node) : ∃ one ∈ parts index signatures properties nodes, Occurs part one := by
  simp only [inner, List.length_append, List.length_map] at hlength
  simp only [parts, List.splitAt_eq, List.mem_append, Option.mem_toList]
  -- the node belongs to one of the three parts of the list
  have hindexed : (nodes.take (indexTypes index).length).length = (indexTypes index).length := by
    rw [List.length_take]
    omega
  have hothers : (nodes.drop (indexTypes index).length).length =
      (callTypes signatures).length + properties.length := by
    rw [List.length_drop]
    omega
  rw [← List.take_append_drop (indexTypes index).length nodes, List.mem_append] at hm
  rcases hm with hm | hm
  · obtain ⟨record, hr, ho⟩ := occurs_indexRecords hindexed hm h
    exact ⟨record, .inl (.inl hr), ho⟩
  · generalize nodes.drop (indexTypes index).length = others at hothers hm ⊢
    have hcalled : (others.take (callTypes signatures).length).length =
        (callTypes signatures).length := by
      rw [List.length_take]
      omega
    rw [← List.take_append_drop (callTypes signatures).length others, List.mem_append] at hm
    rcases hm with hm | hm
    · obtain ⟨union, hu, ho⟩ := occurs_functions hcalled hm h
      exact ⟨union, .inl (.inr hu), ho⟩
    · have hlast : (others.drop (callTypes signatures).length).length = properties.length := by
        rw [List.length_drop]
        omega
      obtain ⟨object, hobject, ho⟩ := occurs_propertyObjects hlast hdistinct hm h
      exact ⟨object, .inr hobject, ho⟩

/-- The references of the nodes inside are there. -/
theorem occurs_build {shape : Shape} {text : Option String} {nodes : List Node}
    (hlength : nodes.length = shape.inner.length) (hdistinct : shape.Distinct)
    (hreadable : shape.halt? text = none) (hm : node ∈ nodes) (h : Occurs part node) :
    Occurs part (shape.build text nodes) := by
  cases shape with
  | leaf | boolean | empty =>
    rw [List.length_eq_zero_iff.mp hlength] at hm
    exact absurd hm List.not_mem_nil
  | array element | set element =>
    obtain ⟨only, rfl⟩ := List.length_eq_one_iff.mp hlength
    exact .child hm h
  | map key value | record key value =>
    match nodes, hlength with
    | [first, second], _ => exact .child hm h
  | tuple first rest =>
    obtain ⟨head, tail, rfl⟩ := List.exists_cons_of_length_eq_add_one hlength
    simp only [inner, List.map_cons, List.length_cons, List.length_map, Nat.add_right_cancel_iff]
      at hlength
    rcases List.mem_cons.mp hm with rfl | hm
    · exact .child List.mem_cons_self (occurs_slot _ h)
    · -- every other node has its slot, as there is one node for each type
      obtain ⟨element, -, hslot⟩ := exists_mem_zipWith
        (f := fun element node => slot element.optional node) (Nat.le_of_eq hlength) hm
      exact .child (List.mem_cons_of_mem _ hslot) (occurs_slot _ h)
  | object index signatures properties =>
    obtain ⟨one, hone, ho⟩ := occurs_parts hlength hdistinct hm h
    exact occurs_conjunction hone ho
  | union first rest | intersection first rest =>
    obtain ⟨head, tail, rfl⟩ := List.exists_cons_of_length_eq_add_one hlength
    exact .child hm h
  | unknown inner => cases hreadable

end Shape

/-! ## The shapes of types -/

namespace TypeInfo

theorem distinct_ofBuiltin (builtin : Builtin) (arguments : List TypeId) :
    (Shape.ofBuiltin builtin arguments).Distinct := by
  unfold Shape.ofBuiltin
  split <;> exact trivial

/-- The shape of a type has distinct properties if the type has. -/
theorem distinct_shape {info : TypeInfo} (h : (info.properties.map Property.name).Nodup) :
    info.shape.Distinct := by
  -- only objects ask for distinct properties, and only structure makes an object
  have hstructural : info.structural.Distinct := by
    unfold structural
    split
    · split
      · exact trivial
      · exact trivial
      · exact h
    · split <;> exact trivial
  unfold shape recognised?
  split
  · exact trivial
  · rename_i raw _ _
    cases raw with
    | string | number => exact trivial
    | bigint negative digits =>
      rw [Option.getD_some, Shape.ofLiteral]
      split <;> exact trivial
  · split
    · exact trivial
    · split
      · exact distinct_ofBuiltin _ _
      · exact trivial
      · exact hstructural

end TypeInfo

/-! ## Composite levels

A named type is put together from parts: it is neither a value nor a name. -/

/-- The kinds of types that are put together from parts. -/
def Kind.isComposite : Kind → Bool
  | .primitive _ | .literal | .reference => false
  | _ => true

namespace Shape

theorem isComposite_functions {signatures : List Signature} {nodes : List Node} :
    ∀ function ∈ functions signatures nodes, function.kind.isComposite = true := by
  induction signatures generalizing nodes with
  | nil => exact fun _ h => absurd h List.not_mem_nil
  | cons signature rest ih =>
    intro function hf
    rcases List.mem_cons.mp hf with rfl | hf
    · rfl
    · exact ih function hf

theorem isComposite_unionOrSingle {nodes : List Node} {union : Node}
    (hu : Node.unionOrSingle? nodes = some union)
    (h : ∀ node ∈ nodes, node.kind.isComposite = true) : union.kind.isComposite = true := by
  match nodes, hu with
  | [only], hu =>
    obtain rfl := Option.some.inj hu
    exact h _ List.mem_cons_self
  | first :: second :: rest, hu =>
    obtain rfl := Option.some.inj hu
    rfl

theorem isComposite_parts {index : Option (Node × TypeId)} {signatures : List Signature}
    {properties : List Property} {nodes : List Node} :
    ∀ part ∈ parts index signatures properties nodes, part.kind.isComposite = true := by
  intro part hp
  simp only [parts, List.splitAt_eq, List.mem_append, Option.mem_toList] at hp
  rcases hp with (hp | hp) | hp
  · obtain ⟨entry, -, value, -, rfl⟩ := exists_of_mem_zipWith hp
    rfl
  · exact isComposite_unionOrSingle hp isComposite_functions
  · unfold propertyObjects at hp
    split at hp
    · exact absurd hp List.not_mem_nil
    · obtain rfl := List.mem_singleton.mp hp
      rfl

theorem isComposite_conjunction {parts : List Node}
    (h : ∀ part ∈ parts, part.kind.isComposite = true) :
    (conjunction parts).kind.isComposite = true := by
  match parts with
  | [] => rfl
  | [only] => exact h only List.mem_cons_self
  | first :: second :: rest => rfl

/-- The shapes that structure alone gives a type. -/
def Structural : Shape → Prop
  | tuple _ _ | object _ _ _ | union _ _ | intersection _ _ | empty _ | unknown _ => True
  | _ => False

/-- A structural shape makes a composite node, if it can be read at all. -/
theorem isComposite_build {shape : Shape} {text : Option String} {nodes : List Node}
    (hstructural : shape.Structural) (hlength : nodes.length = shape.inner.length)
    (readable : shape.halt? text = none) : (shape.build text nodes).kind.isComposite = true := by
  cases shape with
  | tuple first rest | union first rest | intersection first rest =>
    obtain ⟨node, rest, rfl⟩ := List.exists_cons_of_length_eq_add_one hlength
    rfl
  | object index signatures properties => exact isComposite_conjunction isComposite_parts
  | empty kind | unknown inner => cases readable
  | _ => exact hstructural.elim

end Shape

namespace TypeInfo

theorem structural_structural (info : TypeInfo) : info.structural.Structural := by
  unfold structural
  split <;> split <;> trivial

theorem structural_of_isNamed {info : TypeInfo} (h : info.isNamed = true) :
    info.shape.Structural := by
  simp only [isNamed, Bool.and_eq_true, Option.isNone_iff_eq_none] at h
  rw [shape, h.1, Option.getD_none]
  exact info.structural_structural

end TypeInfo

end TypeGraph
