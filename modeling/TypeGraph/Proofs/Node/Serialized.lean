import TypeGraph.Node.Json
import TypeGraph.Proofs.Entries
import TypeGraph.Proofs.Json.Nesting
import TypeGraph.Proofs.Lists
import TypeGraph.Proofs.Node.Normal

/-!
# Nodes are read as they are serialized

The serialized form of a node is decoded as the node, inside other nodes or not. That takes what
every node has that is held in memory, namely that no object has a property twice, and of the
numbers in it that they are finite and read back from their numerals. What is decoded is of this
kind again, and its serialized form is not nested deeper than the document that it was decoded from.

Main results:

* `Node.ofJson_toJson`: nodes are decoded from their serialized form.
* `Node.decoded_ofJson`: what is known of every node that was decoded.
-/

namespace TypeGraph

/-! ## Literals -/

/-- Numerals have finite values only. -/
theorem Numeral.isFinite_of_value? {numeral : Numeral} {x : Binary64}
    (h : numeral.value? = some x) : x.isFinite = true := by
  obtain ⟨hfinite, hx⟩ := Option.dite_none_right_eq_some.mp h
  cases hx
  exact decide_eq_true hfinite

namespace Literal

/-- A number is finite, and its numeral in a document has it for a value. -/
def Written (value : Literal) : Prop :=
  ∀ x, value = .number x → x.isFinite = true ∧ (Json.numberLayout.numeral x).value? = some x

theorem regular_toJson {value : Literal} (h : value.Written) : value.toJson.Regular := by
  cases value with
  | string text => exact .object (by simp [Json.Regular.string])
  | number x =>
    obtain ⟨hfinite, hvalue⟩ := h x rfl
    have hnumeral : (Json.ofBinary64 x).Regular := by
      rw [Json.ofBinary64, if_pos hfinite]
      exact .number (Json.numberLayout.wellFormed_numeral x) (by rw [hvalue]; rfl)
    exact .object (by simp [hnumeral])
  | boolean b => exact .object (by simp [Json.Regular.bool])
  | bigint n => exact .object (by simp [Integer.toJson, Json.Regular.string])
  | null => exact .string "null"

end Literal

theorem Integer.ofJson_toJson (n : Int) : ofJson (toJson n) = .ok n := by
  simp only [toJson, ofJson, Json.asString, pure_bind, parse?_text]
  rfl

namespace Literal

/-- Literals are decoded from their serialized form. -/
theorem ofJson_toJson {value : Literal} (h : value.Written) : ofJson value.toJson = .ok value := by
  cases value with
  | string | boolean | null => rfl
  | number x =>
    obtain ⟨hfinite, hvalue⟩ := h x rfl
    rw [toJson, Json.ofBinary64, if_pos hfinite, ofJson, hvalue]
    rfl
  | bigint n =>
    show (do return bigint (← Integer.ofJson (Integer.toJson n)) : Except ReadError Literal) = _
    rw [Integer.ofJson_toJson]
    rfl

theorem nesting_toJson_le (value : Literal) : value.toJson.nesting ≤ 1 := by
  cases value with
  | number x =>
    cases h : x.isFinite <;> simp [toJson, Json.ofBinary64, h, Json.nesting, Json.nestingOfEntries]
  | _ => simp [toJson, Integer.toJson, Json.nesting, Json.nestingOfEntries]

/-- Numbers that are decoded are finite, and no serialized form is deeper than what was decoded. -/
theorem decoded_ofJson {json : Json} {value : Literal} (h : ofJson json = .ok value) :
    (∀ x, value = .number x → x.isFinite = true) ∧ value.toJson.nesting ≤ json.nesting := by
  -- only what was read from an object is written as one, with one pair of brackets
  have hpos (entries : List (String × Json)) : 1 ≤ (Json.object entries).nesting := by
    rw [Json.nesting]
    exact Nat.succ_pos _
  unfold ofJson at h
  split at h
  · cases h
    exact ⟨fun _ => Literal.noConfusion, Nat.zero_le _⟩
  · cases h
    exact ⟨fun _ => Literal.noConfusion, Nat.zero_le _⟩
  · obtain ⟨text, -, h⟩ := exists_of_bind_eq_ok h
    cases h
    exact ⟨fun _ => Literal.noConfusion, (nesting_toJson_le _).trans (hpos _)⟩
  · split at h
    · rename_i x hvalue
      cases h
      refine ⟨?_, (nesting_toJson_le _).trans (hpos _)⟩
      rintro y heq
      cases heq
      exact Numeral.isFinite_of_value? hvalue
    · cases h
  · cases h
    exact ⟨fun _ => Literal.noConfusion, (nesting_toJson_le _).trans (hpos _)⟩
  · obtain ⟨n, -, h⟩ := exists_of_bind_eq_ok h
    cases h
    exact ⟨fun _ => Literal.noConfusion, (nesting_toJson_le _).trans (hpos _)⟩
  · cases h

end Literal

namespace Node

theorem allToJson_eq_map (nodes : List Node) : allToJson nodes = nodes.map toJson :=
  eq_map rfl (fun _ _ => by rw [allToJson]) nodes

theorem shapeToJson_eq_map (shape : List (String × Node)) :
    shapeToJson shape = shape.map fun property => (property.1, property.2.toJson) :=
  eq_map rfl (fun _ _ => by rw [shapeToJson]) shape

theorem allOfJson_eq_mapM (elements : List Json) :
    allOfJson elements = elements.mapM (ofJson true) :=
  eq_mapM (by rw [allOfJson]) (fun _ _ => by rw [allOfJson]) elements

theorem propertiesOfJson_eq_mapM (entries : List (String × Json)) :
    propertiesOfJson entries = entries.mapM fun entry =>
      return (entry.1, ← ofJson true entry.2) :=
  eq_mapM_values (by rw [propertiesOfJson]) (fun _ _ _ => by rw [propertiesOfJson]) entries

/-! ## Nodes that can be serialized -/

/-- Nodes as they are held in memory, with numbers that documents can hold: no object has a name
twice, and all numbers are finite. -/
structure Serializable (node : Node) : Prop where
  names : node.DistinctNames
  finite : ∀ x, Occurs (.literal (.number x)) node → x.isFinite = true

/-- Numbers in the node are the values of their numerals. -/
def NumbersReadBack (node : Node) : Prop :=
  ∀ x, Occurs (.literal (.number x)) node → x.isFinite = true →
    (Json.numberLayout.numeral x).value? = some x

-- 426422546.91522723 is read as a neighbour of it
example :
    ¬ (literal (.number (.ofOrdinal false 4735933791915887701 (by decide)))).NumbersReadBack :=
  fun h =>
  absurd (h _ .self (by decide)) (by decide +kernel)

variable {node : Node}

theorem Serializable.child {child : Node} (h : node.Serializable) (hc : child ∈ node.children) :
    child.Serializable :=
  ⟨h.names.child hc, fun x hx => h.finite x (.child hc hx)⟩

theorem NumbersReadBack.child {child : Node} (h : node.NumbersReadBack)
    (hc : child ∈ node.children) : child.NumbersReadBack :=
  fun x hx => h x (.child hc hx)

/-- What the outermost level of a node has to do with it. -/
theorem Serializable.of_children
    (hobject : ∀ shape, node = .object shape → (shape.map Prod.fst).Nodup)
    (hnumber : ∀ x, node = .literal (.number x) → x.isFinite = true)
    (h : ∀ child ∈ node.children, child.Serializable) : node.Serializable := by
  constructor
  · intro shape ho
    rcases occurs_iff.mp ho with heq | ⟨child, hc, ho⟩
    · exact hobject shape heq.symm
    · exact (h child hc).names shape ho
  · intro x ho
    rcases occurs_iff.mp ho with heq | ⟨child, hc, ho⟩
    · exact hnumber x heq.symm
    · exact (h child hc).finite x ho

theorem Serializable.of_literal {value : Literal} (h : ∀ x, value = .number x → x.isFinite = true) :
    (literal value).Serializable := by
  refine .of_children (fun _ => Node.noConfusion) (fun x heq => ?_) (by simp [children])
  cases heq
  exact h x rfl

theorem written_of_serializable {value : Literal} (h : (literal value).Serializable)
    (hnumbers : (literal value).NumbersReadBack) : value.Written := by
  rintro x rfl
  have hfinite := h.finite x .self
  exact ⟨hfinite, hnumbers x .self hfinite⟩

/-! ## Documents of nodes -/

theorem regular_tagged (kind : Kind) {fields : List (String × Json)}
    (h : ∀ field ∈ fields, field.2.Regular) : (tagged kind fields).Regular :=
  .object (List.forall_mem_cons.mpr ⟨.string _, h⟩)

/-- Serialized nodes can be printed and decoded. -/
theorem regular_toJson (node : Node) (h : node.Serializable) (hnumbers : node.NumbersReadBack) :
    node.toJson.Regular := by
  have hchild (child : Node) (hc : child ∈ node.children) : child.toJson.Regular :=
    have := sizeOf_lt_of_mem_children hc
    regular_toJson child (h.child hc) (hnumbers.child hc)
  -- members, elements and parameters are written as arrays
  have hall (nodes : List Node) (hnodes : ∀ child ∈ nodes, child ∈ node.children) :
      (Json.array (nodes.map toJson)).Regular := by
    refine .array fun element he => ?_
    obtain ⟨child, hc, rfl⟩ := List.mem_map.mp he
    exact hchild child (hnodes child hc)
  cases node with
  | primitive kind => exact regular_tagged _ (by simp)
  | literal value =>
    have hvalue := Literal.regular_toJson (written_of_serializable h hnumbers)
    exact regular_tagged _ (by simp [hvalue])
  | array element | set element =>
    have helement := hchild element (by simp [children])
    exact regular_tagged _ (by simp [helement])
  | record key value | map key value =>
    have hkey := hchild key (by simp [children])
    have hvalue := hchild value (by simp [children])
    exact regular_tagged _ (by simp [hkey, hvalue])
  | object shape =>
    have hshape : (Json.object (shapeToJson shape)).Regular := by
      rw [shapeToJson_eq_map]
      refine .object fun entry he => ?_
      obtain ⟨property, hp, rfl⟩ := List.mem_map.mp he
      exact hchild property.2 (List.mem_map_of_mem hp)
    exact regular_tagged _ (by simp [hshape])
  | union first rest | tuple first rest | intersection first rest =>
    have hmembers := hall (first :: rest) fun _ hm => hm
    rw [List.map_cons, ← allToJson_eq_map] at hmembers
    exact regular_tagged _ (by simp [hmembers])
  | function parameters returns =>
    have hparameters := hall parameters fun _ => List.mem_append_left _
    rw [← allToJson_eq_map] at hparameters
    refine regular_tagged _ (List.forall_mem_cons.mpr ⟨hparameters, ?_⟩)
    cases returns with
    | none => simp [returnsToJson]
    | some returns =>
      have hreturns := hchild returns (by simp [children])
      simp [returnsToJson, hreturns]
  | reference identifier displayName =>
    refine regular_tagged _ (List.forall_mem_cons.mpr ⟨.string identifier, ?_⟩)
    cases displayName <;> simp [Json.Regular.string]
  termination_by sizeOf node

/-! ## Decoding -/

section

variable (nested : Bool)

/-! What is decoded of a serialized node of each kind, from the forms of its parts. -/

theorem ofJson_primitive (kind : Primitive) :
    ofJson nested (tagged (.primitive kind) []) = .ok (primitive kind) := by
  rw [ofJson]
  cases kind <;> rfl

theorem ofJson_literal (value : Json) :
    ofJson nested (tagged .literal [("value", value)]) =
      (do return literal (← literalOfJson value)) := by
  rw [ofJson]
  rfl

theorem ofJson_array (element : Json) :
    ofJson nested (tagged .array [("element", element)]) =
      (do return array (← ofJson true element)) := by
  rw [ofJson]
  rfl

theorem ofJson_set (element : Json) :
    ofJson nested (tagged .set [("element", element)]) =
      (do return set (← ofJson true element)) := by
  rw [ofJson]
  rfl

theorem ofJson_record (key value : Json) :
    ofJson nested (tagged .record [("key", key), ("value", value)]) =
      (do return record (← ofJson true key) (← ofJson true value)) := by
  rw [ofJson]
  rfl

theorem ofJson_map (key value : Json) :
    ofJson nested (tagged .map [("key", key), ("value", value)]) =
      (do return map (← ofJson true key) (← ofJson true value)) := by
  rw [ofJson]
  rfl

theorem ofJson_object (shape : Json) :
    ofJson nested (tagged .object [("shape", shape)]) =
      (do return objectOf (← shapeOfJson shape)) := by
  rw [ofJson]
  rfl

theorem ofJson_union (members : Json) : ofJson nested (tagged .union [("members", members)]) = (do
    let (first, rest) ← nonEmpty (← listOfJson members)
    return union first rest) := by
  rw [ofJson]
  rfl

theorem ofJson_tuple (elements : Json) :
    ofJson nested (tagged .tuple [("elements", elements)]) = (do
      let (first, rest) ← nonEmpty (← listOfJson elements)
      return tuple first rest) := by
  rw [ofJson]
  rfl

theorem ofJson_intersection (members : Json) :
    ofJson nested (tagged .intersection [("members", members)]) = (do
      let (first, rest) ← nonEmpty (← listOfJson members)
      return intersection first rest) := by
  rw [ofJson]
  rfl

theorem ofJson_action (parameters : Json) :
    ofJson nested (tagged .function [("parameters", parameters)]) =
      (do return function (← listOfJson parameters) none) := by
  rw [ofJson]
  rfl

/-- A result is an object, unlike `null`. -/
theorem ofJson_function (parameters : Json) (entries : List (String × Json)) :
    ofJson nested (tagged .function [("parameters", parameters), ("returns", .object entries)]) =
      (do return function (← listOfJson parameters) (some (← ofJson true (.object entries)))) := by
  rw [ofJson]
  rfl

theorem ofJson_reference (identifier : String) (displayName : Option String) :
    ofJson nested (reference identifier displayName).toJson =
      .ok (reference identifier displayName) := by
  rw [ofJson]
  cases displayName <;> rfl

end

theorem literalOfJson_toJson {value : Literal} (h : value.Written) :
    literalOfJson value.toJson = .ok value := by
  have hread := Literal.ofJson_toJson h
  unfold literalOfJson
  split
  · -- no literal is written as `null`
    rename_i heq
    cases value <;> simp [Literal.toJson] at heq
  · exact hread

theorem exists_toJson (node : Node) : ∃ entries, node.toJson = .object entries := by
  cases node <;> exact ⟨_, rfl⟩

/-- Nodes are decoded from their serialized form. -/
theorem ofJson_toJson (nested : Bool) (node : Node) (h : node.Serializable)
    (hnumbers : node.NumbersReadBack) : ofJson nested node.toJson = .ok node := by
  have hchild (child : Node) (hc : child ∈ node.children) : ofJson true child.toJson = .ok child :=
    have := sizeOf_lt_of_mem_children hc
    ofJson_toJson true child (h.child hc) (hnumbers.child hc)
  have hall (nodes : List Node) (hnodes : ∀ child ∈ nodes, child ∈ node.children) :
      listOfJson (.array (allToJson nodes)) = .ok nodes := by
    rw [allToJson_eq_map, listOfJson, allOfJson_eq_mapM]
    exact mapM_map_eq fun child hc => hchild child (hnodes child hc)
  cases node with
  | primitive kind => exact ofJson_primitive nested kind
  | literal value =>
    rw [toJson, ofJson_literal, literalOfJson_toJson (written_of_serializable h hnumbers)]
    rfl
  | array element =>
    rw [toJson, ofJson_array, hchild element (by simp [children])]
    rfl
  | set element =>
    rw [toJson, ofJson_set, hchild element (by simp [children])]
    rfl
  | record key value =>
    rw [toJson, ofJson_record, hchild key (by simp [children]), hchild value (by simp [children])]
    rfl
  | map key value =>
    rw [toJson, ofJson_map, hchild key (by simp [children]), hchild value (by simp [children])]
    rfl
  | object shape =>
    have hshape : shapeOfJson (.object (shapeToJson shape)) = .ok shape := by
      rw [shapeToJson_eq_map, shapeOfJson, propertiesOfJson_eq_mapM]
      refine mapM_map_eq fun property hp => ?_
      rw [hchild property.2 (List.mem_map_of_mem hp)]
      rfl
    -- properties are inserted one by one, which keeps all of them if their names are distinct
    have hnames : (shape.map Prod.fst).Nodup := h.names shape .self
    rw [toJson, ofJson_object, hshape]
    exact congrArg Except.ok (congrArg object (Entries.ofList_eq_self hnames))
  | union first rest =>
    rw [toJson, ofJson_union, ← allToJson, hall (first :: rest) fun _ hm => hm]
    rfl
  | tuple first rest =>
    rw [toJson, ofJson_tuple, ← allToJson, hall (first :: rest) fun _ hm => hm]
    rfl
  | intersection first rest =>
    rw [toJson, ofJson_intersection, ← allToJson, hall (first :: rest) fun _ hm => hm]
    rfl
  | function parameters returns =>
    have hparameters := hall parameters fun _ => List.mem_append_left _
    rw [toJson]
    cases returns with
    | none =>
      rw [returnsToJson, ofJson_action, hparameters]
      rfl
    | some returns =>
      have hreturns := hchild returns (by simp [children])
      -- an object, and so not taken for a result that is left out
      obtain ⟨entries, hentries⟩ := exists_toJson returns
      rw [hentries] at hreturns
      rw [returnsToJson, hentries, ofJson_function, hparameters, hreturns]
      rfl
  | reference identifier displayName => exact ofJson_reference nested identifier displayName
  termination_by sizeOf node

/-! ## What was decoded -/

/-- A node that was decoded from a document can be serialized, into one that is not deeper. -/
structure Decoded (json : Json) (node : Node) : Prop where
  serializable : node.Serializable
  nesting : node.toJson.nesting ≤ json.nesting

theorem nesting_tagged_le {kind : Kind} {fields : List (String × Json)} {n : Nat} (hpos : 0 < n)
    (h : ∀ field ∈ fields, field.2.nesting < n) : (tagged kind fields).nesting ≤ n :=
  Json.nesting_object_le hpos (List.forall_mem_cons.mpr ⟨hpos, h⟩)

theorem nesting_of_partsOfJson {nested : Bool} {json : Json} {kind : Kind}
    {parts : List (Option (Json.Part json))} (h : partsOfJson nested json = .ok (kind, parts)) :
    0 < json.nesting ∧ ∀ part, some part ∈ parts → part.1.nesting < json.nesting := by
  obtain ⟨kind, -, h⟩ := exists_of_bind_eq_ok h
  obtain ⟨fields, hfields, h⟩ := exists_of_bind_eq_ok h
  cases h
  refine ⟨?_, fun part hpart => Json.nesting_lt_of_record hfields (List.mem_of_mem_tail hpart)⟩
  cases json with
  | array | object =>
    rw [Json.nesting]
    exact Nat.succ_pos _
  | _ => cases hfields

theorem decoded_listOfJson {json : Json} {nodes : List Node} (h : listOfJson json = .ok nodes)
    (hparts : ∀ part, sizeOf part < sizeOf json → ∀ node, ofJson true part = .ok node →
      Decoded part node) :
    (∀ node ∈ nodes, node.Serializable) ∧
    (Json.array (allToJson nodes)).nesting ≤ json.nesting := by
  unfold listOfJson at h
  split at h
  · rename_i elements
    rw [allOfJson_eq_mapM] at h
    -- each node was read from an element, which stands below the bracket
    have hdecoded (node : Node) (hm : node ∈ nodes) :
        ∃ element ∈ elements, Decoded element node := by
      obtain ⟨element, he, hread⟩ := exists_of_mem_forall₂ (forall₂_of_mapM h).flip hm
      have hsize := List.sizeOf_lt_of_mem he
      exact ⟨element, he, hparts element (by simp only [Json.array.sizeOf_spec]; omega) node hread⟩
    constructor
    · intro node hm
      obtain ⟨element, -, hnode⟩ := hdecoded node hm
      exact hnode.serializable
    · rw [allToJson_eq_map]
      refine Json.nesting_array_le (by rw [Json.nesting]; exact Nat.succ_pos _) fun json hjson => ?_
      obtain ⟨node, hm, rfl⟩ := List.mem_map.mp hjson
      obtain ⟨element, he, hnode⟩ := hdecoded node hm
      exact Nat.lt_of_le_of_lt hnode.nesting (Json.nesting_lt_of_mem_elements he)
  · cases h

theorem decoded_shapeOfJson {json : Json} {shape : List (String × Node)}
    (h : shapeOfJson json = .ok shape)
    (hparts : ∀ part, sizeOf part < sizeOf json → ∀ node, ofJson true part = .ok node →
      Decoded part node) :
    (∀ property ∈ shape, property.2.Serializable) ∧
      ∀ properties ⊆ shape, (Json.object (shapeToJson properties)).nesting ≤ json.nesting := by
  unfold shapeOfJson at h
  split at h
  · rename_i entries
    rw [propertiesOfJson_eq_mapM] at h
    -- each property was read from an entry, which stands below the brace
    have hdecoded (property : String × Node) (hm : property ∈ shape) :
        ∃ entry ∈ entries, Decoded entry.2 property.2 := by
      obtain ⟨entry, he, -, hnode⟩ := exists_of_mem_forall₂ (forall₂_of_mapM_values h) hm
      have hsize := sizeOf_snd_lt_of_mem he
      exact ⟨entry, he, hparts entry.2 (by simp only [Json.object.sizeOf_spec]; omega)
        property.2 hnode⟩
    constructor
    · intro property hm
      obtain ⟨entry, -, hproperty⟩ := hdecoded property hm
      exact hproperty.serializable
    · intro properties hsub
      rw [shapeToJson_eq_map]
      refine Json.nesting_object_le (by rw [Json.nesting]; exact Nat.succ_pos _) fun field hf => ?_
      obtain ⟨property, hm, rfl⟩ := List.mem_map.mp hf
      obtain ⟨entry, he, hproperty⟩ := hdecoded property (hsub hm)
      exact Nat.lt_of_le_of_lt hproperty.nesting (Json.nesting_lt_of_mem_entries he)
  · cases h

theorem decoded_literalOfJson {json : Json} {value : Literal} (h : literalOfJson json = .ok value) :
    (literal value).Serializable ∧ value.toJson.nesting ≤ json.nesting := by
  have hvalue :
      (∀ x, value = .number x → x.isFinite = true) ∧ value.toJson.nesting ≤ json.nesting := by
    unfold literalOfJson at h
    split at h
    · cases h
      exact ⟨fun _ => Literal.noConfusion, Nat.zero_le _⟩
    · exact Literal.decoded_ofJson h
  exact ⟨.of_literal hvalue.1, hvalue.2⟩

theorem eq_cons_of_nonEmpty {nodes : List Node} {members : Node × List Node}
    (h : nonEmpty nodes = .ok members) : nodes = members.1 :: members.2 := by
  cases nodes with
  | nil => cases h
  | cons first rest =>
    cases h
    rfl

/-- Of most kinds, a node is what its children are. -/
theorem Decoded.of_children {json : Json} {node : Node} {kind : Kind}
    {fields : List (String × Json)} (hpos : 0 < json.nesting)
    (hkind : node.kind ≠ .object ∧ node.kind ≠ .literal)
    (hchildren : ∀ child ∈ node.children, child.Serializable)
    (hjson : node.toJson = tagged kind fields)
    (hfields : ∀ field ∈ fields, field.2.nesting < json.nesting) : Decoded json node where
  serializable := by
    refine .of_children ?_ ?_ hchildren
    · rintro shape rfl
      exact absurd rfl hkind.1
    · rintro x rfl
      exact absurd rfl hkind.2
  nesting := by
    rw [hjson]
    exact nesting_tagged_le hpos hfields

/-- What is known of every node that was decoded. -/
theorem decoded_ofJson (nested : Bool) (json : Json) {node : Node}
    (h : ofJson nested json = .ok node) : Decoded json node := by
  rw [ofJson] at h
  obtain ⟨⟨kind, parts⟩, hparts, h⟩ := exists_of_bind_eq_ok h
  obtain ⟨hpos, hnesting⟩ := nesting_of_partsOfJson hparts
  have hchild (part : Json) (hsize : sizeOf part < sizeOf json) (node : Node)
      (h : ofJson true part = .ok node) :
      Decoded part node := decoded_ofJson true part h
  have hpart (part : Json.Part json) (hm : some part ∈ parts) {node : Node}
      (h : ofJson true part.1 = .ok node) :
      node.Serializable ∧ node.toJson.nesting < json.nesting := by
    have hnode := hchild part.1 part.2 node h
    exact ⟨hnode.serializable, Nat.lt_of_le_of_lt hnode.nesting (hnesting part hm)⟩
  have hlist (part : Json.Part json) (hm : some part ∈ parts) {nodes : List Node}
      (h : listOfJson part.1 = .ok nodes) :
      (∀ node ∈ nodes, node.Serializable) ∧
        (Json.array (allToJson nodes)).nesting < json.nesting := by
    have hnodes := decoded_listOfJson h fun other ho => hchild other (Nat.lt_trans ho part.2)
    exact ⟨hnodes.1, Nat.lt_of_le_of_lt hnodes.2 (hnesting part hm)⟩
  dsimp only at h
  -- the forms that a node of each kind can have
  split at h
  case h_1 kind heq =>
    cases h
    exact .of_children hpos (by simp [Node.kind]) (by simp [children]) rfl (by simp)
  case h_2 value heq =>
    cases heq
    obtain ⟨literal, hliteral, h⟩ := exists_of_bind_eq_ok h
    cases h
    obtain ⟨hserializable, hless⟩ := decoded_literalOfJson hliteral
    have hvalue := Nat.lt_of_le_of_lt hless (hnesting value (by simp))
    exact ⟨hserializable, nesting_tagged_le hpos (List.forall_mem_singleton.mpr hvalue)⟩
  -- arrays and sets
  case h_3 element heq | h_4 element heq =>
    cases heq
    obtain ⟨inner, hinner, h⟩ := exists_of_bind_eq_ok h
    cases h
    obtain ⟨hserializable, hless⟩ := hpart element (by simp) hinner
    exact .of_children hpos (by simp [Node.kind]) (by simpa [children] using hserializable) rfl
      (List.forall_mem_singleton.mpr hless)
  -- records and maps
  case h_5 key value heq | h_6 key value heq =>
    cases heq
    obtain ⟨keyNode, hkey, h⟩ := exists_of_bind_eq_ok h
    obtain ⟨valueNode, hvalue, h⟩ := exists_of_bind_eq_ok h
    cases h
    obtain ⟨hserializable, hless⟩ := hpart key (by simp) hkey
    obtain ⟨hserializable', hless'⟩ := hpart value (by simp) hvalue
    exact .of_children hpos (by simp [Node.kind])
      (by simp [children, hserializable, hserializable']) rfl (by simp [hless, hless'])
  case h_7 shape heq =>
    cases heq
    obtain ⟨properties, hproperties, h⟩ := exists_of_bind_eq_ok h
    cases h
    obtain ⟨hserializable, hless⟩ :=
      decoded_shapeOfJson hproperties fun other ho => hchild other (Nat.lt_trans ho shape.2)
    -- of properties with one name the last one is kept
    have hkept : Entries.ofList properties ⊆ properties := fun _ => Entries.mem_ofList
    have hshape := Nat.lt_of_le_of_lt (hless _ hkept) (hnesting shape (by simp))
    refine ⟨.of_children ?_ (fun _ => Node.noConfusion) ?_,
      nesting_tagged_le hpos (List.forall_mem_singleton.mpr hshape)⟩
    · rintro kept heq
      cases heq
      exact Entries.nodup_ofList properties
    · intro child hc
      obtain ⟨property, hm, rfl⟩ := List.mem_map.mp hc
      exact hserializable property (hkept hm)
  -- what has members
  case h_8 members heq | h_9 members heq | h_10 members heq =>
    cases heq
    obtain ⟨nodes, hnodes, h⟩ := exists_of_bind_eq_ok h
    obtain ⟨⟨first, rest⟩, hmembers, h⟩ := exists_of_bind_eq_ok h
    cases h
    obtain rfl := eq_cons_of_nonEmpty hmembers
    obtain ⟨hserializable, hless⟩ := hlist members (by simp) hnodes
    exact .of_children hpos (by simp [Node.kind]) hserializable rfl
      (List.forall_mem_singleton.mpr hless)
  -- a result that is left out, or `null`
  case h_11 parameters heq | h_12 parameters _ heq =>
    cases heq
    obtain ⟨nodes, hnodes, h⟩ := exists_of_bind_eq_ok h
    cases h
    obtain ⟨hserializable, hless⟩ := hlist parameters (by simp) hnodes
    exact .of_children hpos (by simp [Node.kind]) (by simpa [children] using hserializable) rfl
      (List.forall_mem_singleton.mpr hless)
  case h_13 parameters returns _ heq =>
    cases heq
    obtain ⟨nodes, hnodes, h⟩ := exists_of_bind_eq_ok h
    obtain ⟨result, hresult, h⟩ := exists_of_bind_eq_ok h
    cases h
    obtain ⟨hserializable, hless⟩ := hlist parameters (by simp) hnodes
    obtain ⟨hserializable', hless'⟩ := hpart returns (by simp) hresult
    refine .of_children hpos (by simp [Node.kind]) ?_ rfl
      (by simp [returnsToJson, hless, hless'])
    simpa [children, or_imp, forall_and, hserializable'] using hserializable
  case h_14 identifier displayName heq =>
    cases heq
    obtain ⟨name, -, h⟩ := exists_of_bind_eq_ok h
    obtain ⟨displayed, -, h⟩ := exists_of_bind_eq_ok h
    cases h
    refine .of_children hpos (by simp [Node.kind]) (by simp [children]) rfl ?_
    cases displayed <;> simpa [Json.nesting] using hpos
  -- fields of another kind, or some of them missing
  case h_15 => cases h
  termination_by sizeOf json

end Node

end TypeGraph
