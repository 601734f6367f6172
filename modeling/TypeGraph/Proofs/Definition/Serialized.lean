import TypeGraph.Definition.Json
import TypeGraph.Proofs.Node.Serialized

/-!
# Serialized values are read back

Everything that has a serialized form is read back from its compact text: nodes, literals, integers,
member lists, definitions, maps of definitions and extractions. A value is printed as one document,
whose brackets may be open inside each other up to a limit; what was parsed is never printed with
more of them than it was parsed from, so that it can be parsed again.

Main results:

* `serialized_roundTrips`: every value is parsed from its text, and so is what was parsed from any
  text.
-/

namespace TypeGraph

/-- Values with a serialized form. -/
structure SerialForm (α : Type) where
  toJson : α → Json
  parse : String → Except ReadError α
  /-- The nodes in a value, with literals on their own among them. -/
  nodes : α → List Node

namespace SerialForm

def node : SerialForm Node := ⟨Node.toJson, Node.parse, fun node => [node]⟩

def literal : SerialForm Literal :=
  ⟨Literal.toJson, Json.parse Literal.ofJson, fun value => [.literal value]⟩

def integer : SerialForm Int := ⟨Integer.toJson, Json.parse Integer.ofJson, fun _ => []⟩

def members : SerialForm (Node × List Node) :=
  ⟨fun members => .array (Node.allToJson (members.1 :: members.2)), Node.parseMembers,
    fun members => members.1 :: members.2⟩

def definition : SerialForm Definition :=
  ⟨Definition.toJson, Definition.parse, fun definition => [definition.node]⟩

def definitions : SerialForm DefinitionMap :=
  ⟨DefinitionMap.toJson, DefinitionMap.parse,
    fun definitions => definitions.values.map Definition.node⟩

def extraction : SerialForm Extraction :=
  ⟨Extraction.toJson, Extraction.parse, fun extraction =>
    extraction.root :: extraction.definitions.values.map Definition.node⟩

variable {α : Type}

/-- A value is parsed from its text, and so is what was parsed from any text. Numbers are taken to
be the values of the numerals that they are written with, which is not so for all of them. -/
structure RoundTrips (form : SerialForm α) : Prop where
  printed : ∀ value, (∀ node ∈ form.nodes value, node.Serializable) →
    (∀ node ∈ form.nodes value, node.NumbersReadBack) →
      (form.toJson value).nesting ≤ Json.depthLimit →
      form.parse (form.toJson value).text = .ok value
  parsed : ∀ text value, form.parse text = .ok value →
      (∀ node ∈ form.nodes value, node.NumbersReadBack) →
    form.parse (form.toJson value).text = .ok value

/-- What is to be shown of the documents. -/
theorem RoundTrips.of_read {form : SerialForm α} (read : Json → Except ReadError α)
    (hparse : form.parse = Json.parse read)
    (hregular : ∀ value, (∀ node ∈ form.nodes value, node.Serializable) →
      (∀ node ∈ form.nodes value, node.NumbersReadBack) → (form.toJson value).Regular)
    (hread : ∀ value, (∀ node ∈ form.nodes value, node.Serializable) →
      (∀ node ∈ form.nodes value, node.NumbersReadBack) →
      (form.toJson value).nesting ≤ Json.depthLimit → read (form.toJson value) = .ok value)
    (hdecoded : ∀ json value, read json = .ok value →
      (∀ node ∈ form.nodes value, node.Serializable) ∧
      (form.toJson value).nesting ≤ Json.depthLimit) :
    form.RoundTrips := by
  have hprinted (value : α) (hnodes : ∀ node ∈ form.nodes value, node.Serializable)
      (hnumbers : ∀ node ∈ form.nodes value, node.NumbersReadBack)
      (hnesting : (form.toJson value).nesting ≤ Json.depthLimit) :
      form.parse (form.toJson value).text = .ok value := by
    rw [hparse, Json.parse, (hregular value hnodes hnumbers).ofText?_text]
    exact hread value hnodes hnumbers hnesting
  refine ⟨hprinted, fun text value h hnumbers => ?_⟩
  -- what was parsed has what printed values are to have
  rw [hparse, Json.parse] at h
  split at h
  · obtain ⟨hnodes, hnesting⟩ := hdecoded _ value h
    exact hprinted value hnodes hnumbers hnesting
  · cases h

end SerialForm

/-! ## Nodes in documents -/

namespace Node

theorem nesting_toJson_pos (node : Node) : 0 < node.toJson.nesting := by
  obtain ⟨entries, h⟩ := node.exists_toJson
  rw [h, Json.nesting]
  exact Nat.succ_pos _

theorem read_toJson {enclosing : Nat} {node : Node} (h : node.Serializable)
    (hnumbers : node.NumbersReadBack)
    (hnesting : node.toJson.nesting ≤ Json.depthLimit - enclosing) :
    read enclosing node.toJson = .ok node := by
  rw [read, if_pos ((regular_toJson node h hnumbers).decodable hnesting)]
  exact ofJson_toJson false node h hnumbers

theorem decoded_read {enclosing : Nat} {json : Json} {node : Node}
    (h : read enclosing json = .ok node) :
    node.Serializable ∧ node.toJson.nesting ≤ Json.depthLimit - enclosing := by
  rw [read] at h
  split at h
  · rename_i hdecodable
    have hnode := decoded_ofJson false json h
    exact ⟨hnode.serializable, hnode.nesting.trans (Json.nesting_le_of_decodable json hdecodable)⟩
  · cases h

theorem readAll_eq_mapM (elements : List Json) : readAll elements = elements.mapM (read 1) :=
  eq_mapM (by rw [readAll]) (fun _ _ => by rw [readAll]) elements

end Node

namespace SerialForm

theorem node_roundTrips : node.RoundTrips := by
  refine .of_read (Node.read 0) rfl ?_ ?_ ?_
  · simp only [node, List.forall_mem_singleton]
    exact Node.regular_toJson
  · simp only [node, List.forall_mem_singleton]
    exact fun value h hnumbers hnesting => Node.read_toJson h hnumbers hnesting
  · simp only [node, List.forall_mem_singleton]
    exact fun _ _ => Node.decoded_read

/-! ## Literals and members -/

theorem literal_roundTrips : literal.RoundTrips := by
  refine .of_read Literal.ofJson rfl ?_ ?_ ?_
  · simp only [literal, List.forall_mem_singleton]
    exact fun value h hnumbers => Literal.regular_toJson (Node.written_of_serializable h hnumbers)
  · simp only [literal, List.forall_mem_singleton]
    exact fun value h hnumbers _ => Literal.ofJson_toJson (Node.written_of_serializable h hnumbers)
  · simp only [literal, List.forall_mem_singleton]
    intro json value h
    exact ⟨.of_literal (Literal.decoded_ofJson h).1,
      (Literal.nesting_toJson_le value).trans (by decide)⟩

theorem integer_roundTrips : integer.RoundTrips :=
  .of_read Integer.ofJson rfl (fun n _ _ => .string (Integer.text n))
    (fun n _ _ _ => Integer.ofJson_toJson n)
    fun _ _ _ => ⟨fun _ hm => absurd hm List.not_mem_nil, Nat.zero_le _⟩

theorem members_roundTrips : members.RoundTrips := by
  refine .of_read _ rfl ?_ ?_ ?_
  · -- each member is regular
    intro value h hnumbers
    refine .array fun element he => ?_
    rw [Node.allToJson_eq_map] at he
    obtain ⟨node, hm, rfl⟩ := List.mem_map.mp he
    exact Node.regular_toJson node (h node hm) (hnumbers node hm)
  · intro value h hnumbers hnesting
    -- each member is read back, one bracket deeper than the list
    have hread : Node.readAll (Node.allToJson (value.1 :: value.2)) = .ok (value.1 :: value.2) := by
      rw [Node.readAll_eq_mapM, Node.allToJson_eq_map]
      refine mapM_map_eq fun node hm => Node.read_toJson (h node hm) (hnumbers node hm) ?_
      have hless : node.toJson.nesting < (members.toJson value).nesting := by
        apply Json.nesting_lt_of_mem_elements
        rw [Node.allToJson_eq_map]
        exact List.mem_map_of_mem hm
      omega
    show (Node.readAll (Node.allToJson (value.1 :: value.2)) >>= Node.nonEmpty) = _
    rw [hread]
    rfl
  · -- what was read has members, which were read one bracket deeper
    intro json value h
    split at h
    · obtain ⟨nodes, hnodes, h⟩ := exists_of_bind_eq_ok h
      obtain rfl := Node.eq_cons_of_nonEmpty h
      rw [Node.readAll_eq_mapM] at hnodes
      have hdecoded (node : Node) (hm : node ∈ value.1 :: value.2) :
          node.Serializable ∧ node.toJson.nesting ≤ Json.depthLimit - 1 := by
        obtain ⟨element, -, hread⟩ := exists_of_mem_forall₂ (forall₂_of_mapM hnodes).flip hm
        exact Node.decoded_read hread
      refine ⟨fun node hm => (hdecoded node hm).1,
        Json.nesting_array_le (by decide) fun element he => ?_⟩
      rw [Node.allToJson_eq_map] at he
      obtain ⟨node, hm, rfl⟩ := List.mem_map.mp he
      exact Nat.lt_of_le_of_lt (hdecoded node hm).2 (by decide)
    · cases h

end SerialForm

/-! ## Definitions in documents -/

namespace Definition

theorem regular_toJson {definition : Definition} (h : definition.node.Serializable)
    (hnumbers : definition.node.NumbersReadBack) : definition.toJson.Regular := by
  refine .object (List.forall_mem_cons.mpr ⟨Node.regular_toJson _ h hnumbers, fun entry he => ?_⟩)
  obtain ⟨label, -, rfl⟩ := Option.map_eq_some_iff.mp (Option.mem_toList.mp he)
  exact .string label

theorem read_toJson {enclosing : Nat} {definition : Definition} (h : definition.node.Serializable)
    (hnumbers : definition.node.NumbersReadBack)
    (hnesting : definition.toJson.nesting ≤ Json.depthLimit - enclosing) :
    read enclosing definition.toJson = .ok definition := by
  have hless : definition.node.toJson.nesting < definition.toJson.nesting :=
    Json.nesting_lt_of_mem_entries List.mem_cons_self
  -- the node stands below the bracket of the definition
  have hnode : Node.read (enclosing + 1) definition.node.toJson = .ok definition.node :=
    Node.read_toJson h hnumbers (by omega)
  obtain ⟨node, label⟩ := definition
  have hread : read enclosing (toJson ⟨node, label⟩) =
      (return ⟨← Node.read (enclosing + 1) node.toJson, label⟩) := by
    cases label <;> rfl
  rw [hread, hnode]
  rfl

theorem decoded_read {enclosing : Nat} {json : Json} {definition : Definition}
    (h : read enclosing json = .ok definition) :
    definition.node.Serializable ∧ definition.toJson.nesting ≤ Json.depthLimit - enclosing := by
  obtain ⟨parts, -, h⟩ := exists_of_bind_eq_ok h
  split at h
  · obtain ⟨node, hnode, h⟩ := exists_of_bind_eq_ok h
    obtain ⟨label, -, h⟩ := exists_of_bind_eq_ok h
    cases h
    obtain ⟨hserializable, hnesting⟩ := Node.decoded_read hnode
    have hpos := node.nesting_toJson_pos
    refine ⟨hserializable, Json.nesting_object_le (by omega) ?_⟩
    refine List.forall_mem_cons.mpr ⟨show node.toJson.nesting < _ by omega, fun entry he => ?_⟩
    obtain ⟨label, -, rfl⟩ := Option.map_eq_some_iff.mp (Option.mem_toList.mp he)
    show 0 < _
    omega
  · cases h

end Definition

namespace DefinitionMap

variable {definitions : DefinitionMap} {enclosing : Nat}

theorem regular_toJson (h : ∀ definition ∈ definitions.values, definition.node.Serializable)
    (hnumbers : ∀ definition ∈ definitions.values, definition.node.NumbersReadBack) :
    definitions.toJson.Regular := by
  refine .object fun entry he => ?_
  obtain ⟨own, hm, rfl⟩ := List.mem_map.mp he
  have hvalue : own.2 ∈ definitions.values := List.mem_map_of_mem hm
  exact Definition.regular_toJson (h own.2 hvalue) (hnumbers own.2 hvalue)

theorem read_toJson (h : ∀ definition ∈ definitions.values, definition.node.Serializable)
    (hnumbers : ∀ definition ∈ definitions.values, definition.node.NumbersReadBack)
    (hnesting : definitions.toJson.nesting ≤ Json.depthLimit - enclosing) :
    read enclosing definitions.toJson = .ok definitions := by
  have hentries : (definitions.entries.map fun entry => (entry.1, entry.2.toJson)).mapM
      (fun entry => return (entry.1, ← Definition.read (enclosing + 1) entry.2)) =
        (.ok definitions.entries : Except ReadError (List (String × Definition))) := by
    refine mapM_map_eq fun entry hm => ?_
    have hvalue : entry.2 ∈ definitions.values := List.mem_map_of_mem hm
    have hless : entry.2.toJson.nesting < definitions.toJson.nesting :=
      Json.nesting_lt_of_mem_entries (List.mem_map_of_mem hm)
    have hread : Definition.read (enclosing + 1) entry.2.toJson = .ok entry.2 :=
      Definition.read_toJson (h entry.2 hvalue) (hnumbers entry.2 hvalue) (by omega)
    rw [hread]
    rfl
  -- no key is there twice, so that each entry stays where it is
  have hself : OrderedMap.ofList definitions.entries = definitions :=
    OrderedMap.ext (Entries.ofList_eq_self definitions.nodup)
  show (do
      let entries ← (definitions.entries.map fun entry => (entry.1, entry.2.toJson)).mapM
        fun entry => return (entry.1, ← Definition.read (enclosing + 1) entry.2)
      return OrderedMap.ofList entries : Except ReadError DefinitionMap) = _
  rw [hentries]
  exact congrArg Except.ok hself

theorem decoded_read {json : Json} (henclosing : enclosing < Json.depthLimit)
    (h : read enclosing json = .ok definitions) :
    (∀ definition ∈ definitions.values, definition.node.Serializable) ∧
      definitions.toJson.nesting ≤ Json.depthLimit - enclosing := by
  unfold read at h
  split at h
  · obtain ⟨pairs, hpairs, h⟩ := exists_of_bind_eq_ok h
    cases h
    -- entries that are kept for their keys are among those that were read
    have hdecoded (entry : String × Definition) (hm : entry ∈ Entries.ofList pairs) :
        entry.2.node.Serializable ∧ entry.2.toJson.nesting ≤ Json.depthLimit - (enclosing + 1) := by
      obtain ⟨source, -, -, hdefinition⟩ :=
        exists_of_mem_forall₂ (forall₂_of_mapM_values hpairs) (Entries.mem_ofList hm)
      exact Definition.decoded_read hdefinition
    constructor
    · intro definition hd
      obtain ⟨entry, hm, rfl⟩ := List.mem_map.mp hd
      exact (hdecoded entry hm).1
    · refine Json.nesting_object_le (by omega) fun field hf => ?_
      obtain ⟨entry, hm, rfl⟩ := List.mem_map.mp hf
      exact Nat.lt_of_le_of_lt (hdecoded entry hm).2 (by omega)
  · cases h

end DefinitionMap

namespace SerialForm

theorem definition_roundTrips : definition.RoundTrips := by
  refine .of_read (Definition.read 0) rfl ?_ ?_ ?_
  · simp only [definition, List.forall_mem_singleton]
    exact fun value => Definition.regular_toJson
  · simp only [definition, List.forall_mem_singleton]
    exact fun value h hnumbers hnesting => Definition.read_toJson h hnumbers hnesting
  · simp only [definition, List.forall_mem_singleton]
    exact fun _ _ => Definition.decoded_read

theorem definitions_roundTrips : definitions.RoundTrips := by
  refine .of_read (DefinitionMap.read 0) rfl ?_ ?_ ?_
  · simp only [definitions, List.forall_mem_map]
    exact fun value => DefinitionMap.regular_toJson
  · simp only [definitions, List.forall_mem_map]
    exact fun value h hnumbers hnesting => DefinitionMap.read_toJson h hnumbers hnesting
  · simp only [definitions, List.forall_mem_map]
    exact fun _ _ => DefinitionMap.decoded_read (by decide)

theorem extraction_roundTrips : extraction.RoundTrips := by
  refine .of_read Extraction.read rfl ?_ ?_ ?_
  · simp only [extraction, List.forall_mem_cons, List.forall_mem_map]
    intro value h hnumbers
    refine .object ?_
    simp only [List.forall_mem_cons, List.not_mem_nil, false_implies, implies_true, and_true]
    exact ⟨Node.regular_toJson _ h.1 hnumbers.1, DefinitionMap.regular_toJson h.2 hnumbers.2⟩
  · simp only [extraction, List.forall_mem_cons, List.forall_mem_map]
    intro value h hnumbers hnesting
    -- both parts stand below the bracket of the extraction
    have hroot : value.root.toJson.nesting < value.toJson.nesting :=
      Json.nesting_lt_of_mem_entries List.mem_cons_self
    have hdefinitions : value.definitions.toJson.nesting < value.toJson.nesting :=
      Json.nesting_lt_of_mem_entries (List.mem_cons_of_mem _ List.mem_cons_self)
    show (do
        return ⟨← Node.read 1 value.root.toJson, ← DefinitionMap.read 1 value.definitions.toJson⟩ :
          Except ReadError Extraction) = _
    rw [Node.read_toJson h.1 hnumbers.1 (by omega),
      DefinitionMap.read_toJson h.2 hnumbers.2 (by omega)]
    rfl
  · simp only [extraction, List.forall_mem_cons, List.forall_mem_map]
    intro json value h
    obtain ⟨parts, -, h⟩ := exists_of_bind_eq_ok h
    split at h
    · obtain ⟨root, hroot, h⟩ := exists_of_bind_eq_ok h
      obtain ⟨definitions, hdefinitions, h⟩ := exists_of_bind_eq_ok h
      cases h
      obtain ⟨hnode, hless⟩ := Node.decoded_read hroot
      obtain ⟨hnodes, hmap⟩ := DefinitionMap.decoded_read (by decide) hdefinitions
      refine ⟨⟨hnode, hnodes⟩, Json.nesting_object_le (by decide) ?_⟩
      simp only [List.forall_mem_cons, List.not_mem_nil, false_implies, implies_true, and_true]
      exact ⟨Nat.lt_of_le_of_lt hless (by decide), Nat.lt_of_le_of_lt hmap (by decide)⟩
    · cases h

end SerialForm

/-- Every value is parsed from its text, and so is what was parsed from any text. -/
theorem serialized_roundTrips :
    SerialForm.node.RoundTrips ∧ SerialForm.literal.RoundTrips ∧ SerialForm.integer.RoundTrips ∧
      SerialForm.members.RoundTrips ∧ SerialForm.definition.RoundTrips ∧
      SerialForm.definitions.RoundTrips ∧
        SerialForm.extraction.RoundTrips :=
  ⟨SerialForm.node_roundTrips, SerialForm.literal_roundTrips, SerialForm.integer_roundTrips,
    SerialForm.members_roundTrips, SerialForm.definition_roundTrips,
    SerialForm.definitions_roundTrips,
    SerialForm.extraction_roundTrips⟩

/-- Half of one, below zero. -/
def discount : Binary64 := .ofOrdinal true (1022 * Binary64.runLength) (by decide)

/-- Properties with a number, a large integer, a function without a result, and the type itself. -/
def offer : Node :=
  .object [("discount\n", .literal (.number discount)), ("stock", .literal (.bigint (-(10 ^ 20)))),
    ("watch", .function [] none), ("next", .reference "Offer" none)]

def offers : Extraction where
  root := .reference "Offer" (some "Offer<\"new\">")
  definitions := .ofList [("Offer", ⟨offer, none⟩)]

theorem offers_roundTrips :
    (∀ node ∈ SerialForm.extraction.nodes offers, node.Serializable) ∧
      (∀ node ∈ SerialForm.extraction.nodes offers, node.NumbersReadBack) ∧
        offers.toJson.nesting ≤ Json.depthLimit ∧ Extraction.parse offers.print = .ok offers := by
  have hnodes {P : Node → Prop} (hroot : P offers.root) (hoffer : P offer) :
      ∀ node ∈ SerialForm.extraction.nodes offers, P node :=
    List.forall_mem_cons.mpr ⟨hroot, List.forall_mem_singleton.mpr hoffer⟩
  -- what occurs in the two nodes can be listed, since neither is deeper than one level
  have hroot {part : Node} (ho : Node.Occurs part offers.root) : part = offers.root := by
    simpa [offers, Node.children] using Node.occurs_iff.mp ho
  have hoffer {part : Node} (ho : Node.Occurs part offer) :
      part = offer ∨ part ∈ offer.children := by
    refine (Node.occurs_iff.mp ho).imp_right ?_
    rintro ⟨child, hc, ho⟩
    have hleaf : ∀ child ∈ offer.children, child.children = [] := by simp [offer, Node.children]
    have heq : part = child := by simpa [hleaf child hc] using Node.occurs_iff.mp ho
    rwa [heq]
  have hnumber {x : Binary64} (ho : Node.Occurs (.literal (.number x)) offer) : x = discount := by
    simpa [offer, Node.children] using hoffer ho
  have hserializable : ∀ node ∈ SerialForm.extraction.nodes offers, node.Serializable := by
    refine hnodes ⟨fun shape ho => ?_, fun x ho => ?_⟩ ⟨fun shape ho => ?_, fun x ho => ?_⟩
    · cases hroot ho
    · cases hroot ho
    · obtain rfl : shape = _ := by simpa [offer, Node.children] using hoffer ho
      decide
    · obtain rfl := hnumber ho
      decide
  have hnumbers : ∀ node ∈ SerialForm.extraction.nodes offers, node.NumbersReadBack := by
    refine hnodes (fun x ho _ => ?_) (fun x ho _ => ?_)
    · cases hroot ho
    · obtain rfl := hnumber ho
      decide +kernel
  have hnesting : offers.toJson.nesting ≤ Json.depthLimit := by decide +kernel
  exact ⟨hserializable, hnumbers, hnesting,
    serialized_roundTrips.2.2.2.2.2.2.printed offers hserializable hnumbers hnesting⟩

end TypeGraph
