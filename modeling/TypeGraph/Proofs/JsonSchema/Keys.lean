import Mathlib.Logic.Relation
import TypeGraph.Proofs.JsonSchema.Documents

/-!
# Names of the entries of records

Which names the document of a record leaves to its entries. A name is a string, and the key of a
record is written as the schema of a value that is such a string. The keys `string` and `number` are
the exception: behind references they admit every name, and nothing is written for them.

So a string that is a key is the name of an entry, but a number that is a key has its text for a
name, and that is not among the values of a number type. `SchemaGraph.acceptsNames_document_iff`
says when nothing is lost by this: if the key admits every name, or if the texts of its numbers are
keys themselves.

Main results:

* `DefinitionMap.belongs_iff_keyOf`: a string belongs to a key if it is one of its keys.
* `SchemaGraph.acceptsName_iff`: the names that a document accepts.
-/

namespace TypeGraph

/-! ## Keys -/

/-- The name of the entry that a key is for: a string, or the text of a number. -/
def Literal.name? : Literal → Option String
  | string text => some text
  | number x => some (numberText x)
  | boolean _ | bigint _ | null => none

namespace Node

/-- What keys are built from: strings, numbers, their literals, and choices of these. -/
def IsKeyPart : Node → Prop
  | primitive .string | primitive .number | literal (.string _) => True
  | literal (.number x) => x.isFinite = true
  | union _ _ | reference _ _ => True
  | _ => False

/-- The keys of a part that leaves no choice. -/
def HasKey (value : Literal) : Node → Prop
  | primitive .string => ∃ text, value = .string text
  | primitive .number => ∃ x, value = .number x
  | literal key => value.beq key = true
  | _ => False

end Node

namespace DefinitionMap

/-- What a node leaves the choice of: a member of a union, or what a reference stands for. -/
inductive Choice (definitions : DefinitionMap) : Node → Node → Prop
  | member {first member : Node} {rest : List Node} (mem : member ∈ first :: rest) :
      Choice definitions (.union first rest) member
  | body {identifier : String} {displayName : Option String} {body : Node}
      (found : definitions.node? identifier = some body) :
      Choice definitions (.reference identifier displayName) body

open Relation (ReflTransGen)

/-- A node is a key if it is built from what keys are built from. -/
def IsKey (definitions : DefinitionMap) (key : Node) : Prop :=
  ∀ part, ReflTransGen definitions.Choice key part → part.IsKeyPart

/-- The strings and numbers that are keys. -/
def KeyOf (definitions : DefinitionMap) (value : Literal) (key : Node) : Prop :=
  ∃ part, ReflTransGen definitions.Choice key part ∧ part.HasKey value

variable {definitions : DefinitionMap} {key part : Node} {value : Literal} {name : String}

theorem IsKey.choice (h : definitions.IsKey key) (hchoice : definitions.Choice key part) :
    definitions.IsKey part := by
  intro other hother
  exact h other (.head hchoice hother)

theorem KeyOf.choice (h : definitions.KeyOf value part) (hchoice : definitions.Choice key part) :
    definitions.KeyOf value key := by
  obtain ⟨other, hother, hvalue⟩ := h
  exact ⟨other, .head hchoice hother, hvalue⟩

/-- A key is a string or a number. -/
theorem KeyOf.exists_name (hkey : definitions.IsKey key) (h : definitions.KeyOf value key) :
    (∃ text, value = .string text) ∨ ∃ x, value = .number x := by
  obtain ⟨part, hpart, hvalue⟩ := h
  have hkind := hkey part hpart
  cases part with
  | primitive kind =>
    cases kind with
    | string => exact .inl hvalue
    | number => exact .inr hvalue
    | _ => cases hvalue
  | literal literal =>
    -- literals are only equal to literals of their kind
    cases literal <;> cases value <;> simp_all [Node.IsKeyPart, Node.HasKey, Literal.beq]
  | _ => cases hvalue

/-! ## Membership -/

/-- What a choice admits, the node admits. -/
theorem Belongs.choice {value : Json} (h : definitions.Belongs value part)
    (hchoice : definitions.Choice key part) : definitions.Belongs value key := by
  cases hchoice with
  | member mem => exact belongs_union.mpr ⟨_, mem, h⟩
  | body found => exact belongs_iff.mpr ⟨_, found, h⟩

theorem belongs_of_hasKey (h : part.HasKey (.string name)) :
    definitions.Belongs (.string name) part := by
  refine belongs_iff.mpr ?_
  -- parts of keys are strings, numbers and literals, of which a name meets the strings only
  cases part with
  | primitive kind =>
    cases kind with
    | string => exact ⟨name, rfl⟩
    | number =>
      obtain ⟨x, hx⟩ := h
      cases hx
    | _ => cases h
  | literal literal =>
    have heq : Literal.string name = literal := by
      cases literal <;> simp_all [Node.HasKey, Literal.beq]
    rw [← heq]
    rfl
  | _ => cases h

/-- A string belongs to a key if it is one of its keys. -/
theorem belongs_iff_keyOf (hkey : definitions.IsKey key) :
    definitions.Belongs (.string name) key ↔ definitions.KeyOf (.string name) key := by
  constructor
  · intro hbelongs
    -- induction on membership, which goes from a choice to what it admits
    refine hbelongs.induction (motive := fun value key => value = .string name →
      definitions.IsKey key → definitions.KeyOf (.string name) key) ?_ rfl hkey
    rintro _ key hadmits rfl hkey
    have hkind := hkey key .refl
    cases key with
    | primitive kind =>
      cases kind with
      | string => exact ⟨_, .refl, name, rfl⟩
      | number =>
        obtain ⟨numeral, hnumeral⟩ := hadmits
        cases hnumeral
      | _ => cases hkind
    | literal literal =>
      cases literal with
      | string text =>
        cases hadmits
        exact ⟨_, .refl, beq_self_eq_true _⟩
      | number x =>
        obtain ⟨numeral, hnumeral, -⟩ := hadmits
        cases hnumeral
      | _ => cases hkind
    | union first rest =>
      obtain ⟨member, hm, -, ih⟩ := hadmits
      exact (ih rfl (hkey.choice (.member hm))).choice (.member hm)
    | reference identifier displayName =>
      obtain ⟨body, hbody, -, ih⟩ := hadmits
      exact (ih rfl (hkey.choice (.body hbody))).choice (.body hbody)
    | _ => cases hkind
  · rintro ⟨part, hpart, hvalue⟩
    clear hkey
    induction hpart using Relation.ReflTransGen.head_induction_on with
    | refl => exact belongs_of_hasKey hvalue
    | head hchoice _ ih => exact ih.choice hchoice

end DefinitionMap

/-! ## Documents -/

/-- A document of objects leaves a name to their entries. -/
def Json.AcceptsName (document : Json) (name : String) : Prop :=
  ∀ schema, Entries.get? "propertyNames" document.entries = some schema →
    document.Validates (.string name) schema

namespace JsonSchema

variable {nameOf : LazyId → String} {values : JsonSchema} {dialect : Json}
  {definitions : List (String × Json)}

theorem get?_propertyNames (names : Option JsonSchema) :
    Entries.get? "propertyNames" ([("$schema", dialect)] ++ toJson nameOf (record names values) ++
      SchemaGraph.definitionsEntry definitions) = names.map fun schema =>
        .object (schema.toJson nameOf) := by
  have hdefs : Entries.get? "propertyNames" (SchemaGraph.definitionsEntry definitions) = none := by
    rw [SchemaGraph.definitionsEntry]
    split <;> rfl
  rw [Entries.get?_append, hdefs, Option.or_none, Entries.get?_append]
  cases names <;> rfl

end JsonSchema

namespace SchemaGraph

variable {graph : SchemaGraph} {definitions : DefinitionMap} {key content : Node} {root : SchemaId}
  {document : Json}

/-- The document of a record accepts the strings that are its keys, or all names. -/
theorem acceptsName_iff (h : ofNode definitions (.record key content) = .ok (graph, root))
    (hdocument : graph.document root = .ok document) (hkey : definitions.IsKey key)
    (name : String) :
    document.AcceptsName name ↔
    definitions.AdmitsAllNames key ∨ definitions.KeyOf (.string name) key := by
  obtain ⟨schema, entries, hdocument, hwritten, hwrites⟩ := exists_written_of_document h hdocument
  have hrecord := hwrites _ _ hwritten
  rw [Node.normalize] at hrecord
  have hadmits :
      definitions.normalize.AdmitsAllNames key.normalize ↔ definitions.AdmitsAllNames key :=
    DefinitionMap.admitsAllNames_definitions.trans (DefinitionMap.admitsAllNames_normalize key)
  -- a key that admits all names is not written, and any other is written as the schema of names
  cases hrecord with
  | @recordOfAnyName values _ _ unrestricted _ =>
    have hnames : Entries.get? "propertyNames" document.entries = none := by
      rw [hdocument]
      exact JsonSchema.get?_propertyNames none
    refine iff_of_true ?_ (.inl (hadmits.mp unrestricted))
    intro schema hschema
    cases hnames.symm.trans hschema
  | @record names values _ _ restricted keys _ =>
    have hnames : Entries.get? "propertyNames" document.entries =
        some (.object (names.toJson graph.lazyName)) := by
      rw [hdocument]
      exact JsonSchema.get?_propertyNames (some names)
    calc document.AcceptsName name
        ↔ document.Validates (.string name) (.object (names.toJson graph.lazyName)) := by
          constructor
          · exact fun haccepts => haccepts _ hnames
          · intro hvalid schema hschema
            cases hnames.symm.trans hschema
            exact hvalid
      _ ↔ definitions.normalize.Belongs (.string name) key.normalize :=
          JsonSchema.validates_iff_belongs hwrites keys
      _ ↔ definitions.Belongs (.string name) key := DefinitionMap.belongs_normalize
      _ ↔ definitions.KeyOf (.string name) key := DefinitionMap.belongs_iff_keyOf hkey
      _ ↔ _ := (or_iff_right (mt hadmits.mpr restricted)).symm

/-- The document of a record accepts the names of all strings that are keys. It accepts those of all
numbers that are keys as well exactly if the key admits every name, or if the texts of these numbers
are keys. -/
theorem acceptsNames_document_iff (h : ofNode definitions (.record key content) = .ok (graph, root))
    (hdocument : graph.document root = .ok document) (hkey : definitions.IsKey key) :
    (∀ name, document.AcceptsName name ↔
        definitions.AdmitsAllNames key ∨ definitions.KeyOf (.string name) key) ∧
      (∀ name, definitions.KeyOf (.string name) key → document.AcceptsName name) ∧
      ((∀ value name, definitions.KeyOf value key → value.name? = some name →
          document.AcceptsName name) ↔
        definitions.AdmitsAllNames key ∨ ∀ x, definitions.KeyOf (.number x) key →
          definitions.KeyOf (.string (Literal.numberText x)) key) := by
  have haccepts := acceptsName_iff h hdocument hkey
  refine ⟨haccepts, fun name hname => (haccepts name).mpr (.inr hname), ?_⟩
  constructor
  · intro hall
    by_cases hadmits : definitions.AdmitsAllNames key
    · exact .inl hadmits
    · refine .inr fun x hx => ?_
      exact ((haccepts _).mp (hall _ _ hx rfl)).resolve_left hadmits
  · intro hnumbers value name hvalue hname
    rw [haccepts name]
    refine hnumbers.imp_right fun hnumbers => ?_
    -- the name of a string is the string, and that of a number its text
    obtain ⟨text, rfl⟩ | ⟨x, rfl⟩ := hvalue.exists_name hkey
    · cases hname
      exact hvalue
    · cases hname
      exact hnumbers x hvalue

/-! A record with the keys `"default"` and `0`, whose document refuses the name `0`. -/

def slotKey : Node := .union (.literal (.string "default")) [.literal (.number .zero)]

def slotsGraph : SchemaGraph where
  schemas := #[.literal (.string "default"), .literal (.number .zero), .union [0, 1],
    .primitive .boolean, .record 2 3]

def slotsDocument : Json :=
  .object [("$schema", .string vocabulary), ("type", .string "object"),
    ("propertyNames", .object [("anyOf", .array [.object [("const", .string "default")],
      .object [("const", .ofBinary64 .zero)]])]),
    ("additionalProperties", .object [("type", .string "boolean")])]

open SchemaDraft in
theorem ofNode_slots :
    ofNode .empty (.record slotKey (.primitive .boolean)) = .ok (slotsGraph, 4) := by
  have hpresence : (Node.union (.literal (.string "default")) [.literal (.number .zero)]).presence =
      .required := rfl
  have hbuild : (buildWithin .empty 0 (.record slotKey (.primitive .boolean))).run.run {} =
      (.ok 4, ⟨slotsGraph, .empty⟩) := by
    simp only [slotKey, buildWithin, buildAll, hpresence]
    rfl
  rw [ofNode, SchemaDraft.build, show OrderedMap.size .empty = 0 from rfl, hbuild]
  rfl

theorem document_slots : slotsGraph.document 4 = .ok slotsDocument := by
  have hkey : slotsGraph.resolve 2 = .ok (.union [0, 1]) := by
    unfold resolve follow
    rfl
  have hrender : slotsGraph.render 4 =
      .ok (.record (some (.anyOf [.const (.string "default"), .const (.ofBinary64 .zero)]))
        (.type "boolean")) := by
    show (orHalt (slotsGraph.resolve 2) >>= _) = _
    rw [hkey]
    rfl
  have hentries : slotsGraph.renderLazies [] [] = .ok [] := by
    rw [renderLazies]
    rfl
  rw [document, hrender]
  show (slotsGraph.renderLazies [] [] >>= _) = _
  rw [hentries]
  rfl

open Relation in
theorem choice_slotKey {part : Node} :
    ReflTransGen (DefinitionMap.Choice .empty) slotKey part ↔
      part = slotKey ∨ part = .literal (.string "default") ∨ part = .literal (.number .zero) := by
  constructor
  · intro h
    induction h with
    | refl => exact .inl rfl
    | tail _ hchoice ih =>
      -- only the union leaves a choice
      rcases ih with rfl | rfl | rfl
      · cases hchoice with
        | member mem => exact .inr (by simpa using mem)
      · cases hchoice
      · cases hchoice
  · rintro (rfl | rfl | rfl)
    · exact .refl
    · exact .single (.member List.mem_cons_self)
    · exact .single (.member (List.mem_cons_of_mem _ List.mem_cons_self))

theorem isKey_slotKey : DefinitionMap.IsKey .empty slotKey := by
  intro part hpart
  rcases choice_slotKey.mp hpart with rfl | rfl | rfl
  · trivial
  · trivial
  · rfl

theorem keyOf_slotKey {value : Literal} :
    DefinitionMap.KeyOf .empty value slotKey ↔
      value.beq (.string "default") = true ∨ value.beq (.number .zero) = true := by
  constructor
  · rintro ⟨part, hpart, hvalue⟩
    rcases choice_slotKey.mp hpart with rfl | rfl | rfl
    · cases hvalue
    · exact .inl hvalue
    · exact .inr hvalue
  · rintro (hvalue | hvalue)
    · exact ⟨_, choice_slotKey.mpr (.inr (.inl rfl)), hvalue⟩
    · exact ⟨_, choice_slotKey.mpr (.inr (.inr rfl)), hvalue⟩

theorem not_admitsAllNames_slotKey : ¬ DefinitionMap.AdmitsAllNames .empty slotKey := by
  rintro (_ | _)

theorem slots_acceptNames :
    ofNode .empty (.record slotKey (.primitive .boolean)) = .ok (slotsGraph, 4) ∧
      slotsGraph.document 4 = .ok slotsDocument ∧ DefinitionMap.IsKey .empty slotKey ∧
      slotsDocument.AcceptsName "default" ∧ ¬ slotsDocument.AcceptsName "other" := by
  obtain ⟨haccepts, hstrings, -⟩ :=
    acceptsNames_document_iff ofNode_slots document_slots isKey_slotKey
  refine ⟨ofNode_slots, document_slots, isKey_slotKey, ?_, ?_⟩
  · exact hstrings "default" (keyOf_slotKey.mpr (.inl (by decide)))
  · rw [haccepts, keyOf_slotKey]
    exact not_or.mpr ⟨not_admitsAllNames_slotKey, by decide⟩

/-- The document refuses the name of the key `0`. -/
theorem zeroSlot_refused :
    ofNode .empty (.record slotKey (.primitive .boolean)) = .ok (slotsGraph, 4) ∧
      slotsGraph.document 4 = .ok slotsDocument ∧ DefinitionMap.IsKey .empty slotKey ∧
      DefinitionMap.KeyOf .empty (.number .zero) slotKey ∧
      (Literal.number .zero).name? = some "0" ∧ ¬ slotsDocument.AcceptsName "0" := by
  refine ⟨ofNode_slots, document_slots, isKey_slotKey, keyOf_slotKey.mpr (.inr (by decide)),
    by decide, ?_⟩
  rw [acceptsName_iff ofNode_slots document_slots isKey_slotKey, keyOf_slotKey]
  exact not_or.mpr ⟨not_admitsAllNames_slotKey, by decide⟩

end SchemaGraph

end TypeGraph
