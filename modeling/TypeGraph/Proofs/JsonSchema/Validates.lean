import TypeGraph.JsonSchema.Basic
import TypeGraph.Proofs.Entries
import TypeGraph.Proofs.JsonSchema.Values
import TypeGraph.Proofs.Lists
import TypeGraph.Proofs.Number.ReadBack

/-!
# Validation

Which JSON values a document validates, for the keywords that documents are written with.
`Json.Validates` is the least relation that the assertions of the keywords allow. An assertion that
something is not validated is no rule for a least relation, so `not` goes by a validation of its
own, in which no `not` holds; the schema under the `not` of a document has none in it.

Main results:

* `definition?_eq`: a pointer leads to the entry of `$defs` that it was written for.
* `checks_type`, `checks_array`, …: what the written form of each schema asserts.
-/

namespace TypeGraph

namespace Json

/-! ## Pointers -/

/-- A name as it was before it was escaped. -/
def unescape : List Char → List Char
  | '~' :: '0' :: rest => '~' :: unescape rest
  | '~' :: '1' :: rest => '/' :: unescape rest
  | c :: rest => c :: unescape rest
  | [] => []

/-- The entries of the `$defs` of a document. -/
def definitions (document : Json) : List (String × Json) :=
  ((Entries.get? "$defs" document.entries).getD null).entries

/-- The entry of `$defs` that a pointer leads to. -/
def definition? (document : Json) (pointer : String) : Option Json := do
  let escaped ← "#/$defs/".toList.isPrefixOf? pointer.toList
  -- a name ends where another step begins
  guard ('/' ∉ escaped)
  let definitions ← Entries.get? "$defs" document.entries
  Entries.get? (String.ofList (unescape escaped)) definitions.entries

/-! ## Keywords -/

/-- The keywords that assert something. -/
inductive Keyword where
  | type
  | const
  | items
  | uniqueItems
  | prefixItems
  | minItems
  | properties
  | required
  | propertyNames
  | additionalProperties
  | anyOf
  | allOf
  | not
  | ref

def Keyword.ofName? : String → Option Keyword
  | "type" => some type
  | "const" => some const
  | "items" => some items
  | "uniqueItems" => some uniqueItems
  | "prefixItems" => some prefixItems
  | "minItems" => some minItems
  | "properties" => some properties
  | "required" => some required
  | "propertyNames" => some propertyNames
  | "additionalProperties" => some additionalProperties
  | "anyOf" => some anyOf
  | "allOf" => some allOf
  | "not" => some not
  | "$ref" => some ref
  | _ => none

/-- The schemas of the first elements, which `items` leaves to `prefixItems`. -/
def leadingItems (keywords : List (String × Json)) : List Json :=
  ((Entries.get? "prefixItems" keywords).getD null).elements

/-- The schemas of named properties, which `additionalProperties` leaves to `properties`. -/
def namedProperties (keywords : List (String × Json)) : List (String × Json) :=
  ((Entries.get? "properties" keywords).getD null).entries

/-- What a keyword with an argument, among other keywords, asserts about a value: over what `inner`
validates under a `not`, and what is known to be accepted elsewhere. Keywords about elements or
entries assert nothing about other values. -/
def Asserts (document : Json) (inner accepts : Json → Json → Prop) (keywords : List (String × Json))
    (value argument : Json) : Keyword → Prop
  | .type => ∃ name, argument = string name ∧ value.typeName? = some name
  | .const => value.same argument = true
  | .items => ∀ element ∈ value.elements.drop (leadingItems keywords).length,
      accepts element argument
  | .uniqueItems => argument = bool true →
      value.elements.Pairwise fun element other => element.same other = false
  | .prefixItems => ∀ slot ∈ value.elements.zip argument.elements, accepts slot.1 slot.2
  | .minItems => value.typeName? = some "array" →
      ∃ numeral least, argument = number numeral ∧ numeral.natural? = some least ∧
        least ≤ value.elements.length
  | .properties => ∀ entry ∈ value.entries, ∀ schema,
      Entries.get? entry.1 argument.entries = some schema → accepts entry.2 schema
  | .required => value.typeName? = some "object" →
      ∀ name, string name ∈ argument.elements → name ∈ value.entries.map Prod.fst
  | .propertyNames => ∀ entry ∈ value.entries, accepts (string entry.1) argument
  | .additionalProperties => ∀ entry ∈ value.entries,
      entry.1 ∉ (namedProperties keywords).map Prod.fst → accepts entry.2 argument
  | .anyOf => ∃ schema ∈ argument.elements, accepts value schema
  | .allOf => ∀ schema ∈ argument.elements, accepts value schema
  | .not => ¬ inner value argument
  | .ref => ∃ pointer schema, argument = string pointer ∧
      document.definition? pointer = some schema ∧ accepts value schema

variable {document : Json} {inner accepts accepts' : Json → Json → Prop}

theorem Asserts.mono (hle : ∀ value schema, accepts value schema → accepts' value schema)
    {keywords : List (String × Json)} {value argument : Json} {keyword : Keyword}
    (h : Asserts document inner accepts keywords value argument keyword) :
    Asserts document inner accepts' keywords value argument keyword := by
  cases keyword with
  | type | const | uniqueItems | minItems | required | not => exact h
  | items => exact fun element he => hle _ _ (h element he)
  | prefixItems => exact fun slot hs => hle _ _ (h slot hs)
  | properties => exact fun entry he schema hs => hle _ _ (h entry he schema hs)
  | propertyNames => exact fun entry he => hle _ _ (h entry he)
  | additionalProperties => exact fun entry he hn => hle _ _ (h entry he hn)
  | anyOf =>
    obtain ⟨schema, hs, haccepts⟩ := h
    exact ⟨schema, hs, hle _ _ haccepts⟩
  | allOf => exact fun schema hs => hle _ _ (h schema hs)
  | ref =>
    obtain ⟨pointer, schema, hpointer, hschema, haccepts⟩ := h
    exact ⟨pointer, schema, hpointer, hschema, hle _ _ haccepts⟩

/-- What an entry of a schema asserts; names that are no keywords assert nothing. -/
def Says (document : Json) (inner accepts : Json → Json → Prop) (keywords : List (String × Json))
    (value : Json) (entry : String × Json) : Prop :=
  ∀ keyword, Keyword.ofName? entry.1 = some keyword →
    Asserts document inner accepts keywords value entry.2 keyword

/-- The rules of validation: a schema accepts what all its entries assert. -/
def Checks (document : Json) (inner accepts : Json → Json → Prop) (value : Json) : Json → Prop
  | bool truth => truth = true
  | object keywords => ∀ entry ∈ keywords, Says document inner accepts keywords value entry
  | _ => False

theorem Checks.mono (hle : ∀ value schema, accepts value schema → accepts' value schema)
    {value schema : Json} (h : Checks document inner accepts value schema) :
    Checks document inner accepts' value schema := by
  cases schema with
  | object keywords => exact fun entry he keyword hk => (h entry he keyword hk).mono hle
  | _ => exact h

def validation (document : Json) (inner : Json → Json → Prop) :
    (Json → Json → Prop) →o (Json → Json → Prop) where
  toFun accepts := Checks document inner accepts
  monotone' _ _ hle _ _ h := h.mono hle

/-- Validation of what stands under a `not`, where no `not` holds. -/
def ValidatesInner (document : Json) : Json → Json → Prop :=
  (validation document fun _ _ => True).lfp

/-- Whether a value is valid against a schema of the document. -/
def Validates (document : Json) : Json → Json → Prop :=
  (validation document document.ValidatesInner).lfp

variable {value schema : Json}

theorem validates_iff : document.Validates value schema ↔
    Checks document document.ValidatesInner document.Validates value schema := Least.lfp_iff

theorem Validates.induction {motive : Json → Json → Prop}
    (step : ∀ value schema, Checks document document.ValidatesInner
      (fun value schema => document.Validates value schema ∧ motive value schema) value schema →
        motive value schema)
    (h : document.Validates value schema) : motive value schema := Least.induction step h

/-! ## Entries around a schema -/

/-- What an entry says depends on the entries around it by the schemas that are left to others. -/
theorem says_congr {keywords keywords' : List (String × Json)}
    (hitems : leadingItems keywords = leadingItems keywords')
    (hproperties : namedProperties keywords = namedProperties keywords') {entry : String × Json} :
    Says document inner accepts keywords value entry ↔
      Says document inner accepts keywords' value entry := by
  refine forall₂_congr fun keyword _ => ?_
  cases keyword with
  | items =>
    show (∀ element ∈ value.elements.drop (leadingItems keywords).length, _) ↔ _
    rw [hitems]
    exact Iff.rfl
  | additionalProperties =>
    show (∀ entry ∈ value.entries, entry.1 ∉ (namedProperties keywords).map Prod.fst → _) ↔ _
    rw [hproperties]
    exact Iff.rfl
  | _ => exact Iff.rfl

/-- Entries of which none is a keyword. -/
def Silent (entries : List (String × Json)) : Prop :=
  ∀ entry ∈ entries, Keyword.ofName? entry.1 = none

theorem Silent.get?_eq_none {entries : List (String × Json)} (h : Silent entries) {name : String}
    {keyword : Keyword} (hname : Keyword.ofName? name = some keyword) :
    Entries.get? name entries = none := by
  rw [Entries.get?_eq_none_iff]
  intro hmem
  obtain ⟨entry, he, rfl⟩ := List.mem_map.mp hmem
  cases (h entry he).symm.trans hname

theorem Silent.says_all {entries keywords : List (String × Json)} (h : Silent entries) :
    ∀ entry ∈ entries, Says document inner accepts keywords value entry := by
  intro entry he keyword hkeyword
  cases (h entry he).symm.trans hkeyword

/-- Entries that are no keywords may stand around those of a schema. -/
theorem checks_around {before keywords after : List (String × Json)} (hbefore : Silent before)
    (hafter : Silent after) :
    Checks document inner accepts value (object (before ++ keywords ++ after)) ↔
      Checks document inner accepts value (object keywords) := by
  -- keywords that are silent are looked up by none of the others
  have hlookup {name : String} {keyword : Keyword} (hname : Keyword.ofName? name = some keyword) :
      Entries.get? name (before ++ keywords ++ after) = Entries.get? name keywords := by
    rw [Entries.get?_append, Entries.get?_append, hbefore.get?_eq_none hname,
      hafter.get?_eq_none hname, Option.none_or, Option.or_none]
  have hitems : leadingItems (before ++ keywords ++ after) = leadingItems keywords := by
    rw [leadingItems, hlookup (show Keyword.ofName? "prefixItems" = some .prefixItems from rfl),
      leadingItems]
  have hproperties : namedProperties (before ++ keywords ++ after) = namedProperties keywords := by
    rw [namedProperties, hlookup (show Keyword.ofName? "properties" = some .properties from rfl),
      namedProperties]
  show (∀ entry ∈ before ++ keywords ++ after, _) ↔ ∀ entry ∈ keywords, _
  rw [List.forall_mem_append, List.forall_mem_append]
  constructor
  · exact fun h entry he => (says_congr hitems hproperties).mp (h.1.2 entry he)
  · intro h
    refine ⟨⟨hbefore.says_all, fun entry he => ?_⟩, hafter.says_all⟩
    exact (says_congr hitems hproperties).mpr (h entry he)

/-! ## Pointers that are written -/

section

open JsonSchema

theorem unescape_pointerChars (name : List Char) : unescape (pointerChars name) = name := by
  -- each character is escaped on its own, and is one again before the rest is looked at
  induction name with
  | nil => rfl
  | cons c rest ih =>
    rw [pointerChars, List.flatMap_cons, ← pointerChars]
    split
    · rename_i heq
      rw [heq]
      exact congrArg _ ih
    · split
      · rename_i heq
        rw [heq]
        exact congrArg _ ih
      · rename_i hne _
        have hplain (chars : List Char) : unescape (c :: chars) = c :: unescape chars := by
          rw [unescape]
          · exact fun _ heq => absurd heq hne
          · exact fun _ heq => absurd heq hne
        rw [List.singleton_append, hplain, ih]

theorem slash_not_mem_pointerChars (name : List Char) : '/' ∉ pointerChars name := by
  rw [pointerChars, List.mem_flatMap]
  rintro ⟨c, -, hc⟩
  split at hc
  · simp at hc
  · split at hc
    · simp at hc
    · rename_i hne
      exact hne (List.mem_singleton.mp hc).symm

/-- A pointer leads to the definition of the name that it was written for. -/
theorem definition?_eq (document : Json) (name : String) :
    document.definition? (pointer name) = Entries.get? name document.definitions := by
  have hchars : "#/$defs/".toList.isPrefixOf? (pointer name).toList =
      some (pointerChars name.toList) := by
    simp [pointer, List.isPrefixOf?]
  rw [definition?, hchars, definitions]
  cases Entries.get? "$defs" document.entries with
  | none => simp [entries, Entries.get?]
  | some written => simp [slash_not_mem_pointerChars, unescape_pointerChars]

theorem definition?_pointer {document : Json} {definitions : List (String × Json)}
    (h : Entries.get? "$defs" document.entries = some (object definitions)) (name : String) :
    document.definition? (pointer name) = Entries.get? name definitions := by
  rw [definition?_eq, Json.definitions, h]
  rfl

end

end Json

/-! ## Written schemas -/

namespace JsonSchema

open Json

variable {document : Json} {inner accepts : Json → Json → Prop} {nameOf : LazyId → String}
  {value : Json}

theorem allToJson_eq (schemas : List JsonSchema) :
    allToJson nameOf schemas = schemas.map fun schema => .object (schema.toJson nameOf) :=
  eq_map rfl (fun _ _ => by rw [allToJson]) schemas

theorem propertiesToJson_eq (properties : List (String × JsonSchema)) :
    propertiesToJson nameOf properties =
      properties.map fun property => (property.1, .object (property.2.toJson nameOf)) :=
  eq_map rfl (fun _ _ => by rw [propertiesToJson]) properties

/-! What an entry says, for each keyword as it is written. -/

section

variable {keywords : List (String × Json)} {schema : JsonSchema} {schemas : List JsonSchema}

theorem says_iff {name : String} {argument : Json} {keyword : Keyword}
    (h : Keyword.ofName? name = some keyword) :
    Says document inner accepts keywords value (name, argument) ↔
      Asserts document inner accepts keywords value argument keyword := by
  constructor
  · exact fun hsays => hsays keyword h
  · intro hasserts keyword' h'
    exact Option.some.inj (h.symm.trans h') ▸ hasserts

theorem says_type {name : String} :
    Says document inner accepts keywords value ("type", .string name) ↔
    value.typeName? = some name := by
  refine (says_iff (show Keyword.ofName? "type" = some .type from rfl)).trans ?_
  constructor
  · rintro ⟨_, hname, htype⟩
    cases hname
    exact htype
  · exact fun htype => ⟨name, rfl, htype⟩

theorem says_const {expected : Json} :
    Says document inner accepts keywords value ("const", expected) ↔
    value.same expected = true :=
  says_iff (show Keyword.ofName? "const" = some .const from rfl)

theorem says_items {argument : Json} :
    Says document inner accepts keywords value ("items", argument) ↔
    ∀ element ∈ value.elements.drop (leadingItems keywords).length, accepts element argument :=
  says_iff (show Keyword.ofName? "items" = some .items from rfl)

theorem says_uniqueItems : Says document inner accepts keywords value ("uniqueItems", .bool true) ↔
    value.elements.Pairwise fun element other => element.same other = false :=
  (says_iff (show Keyword.ofName? "uniqueItems" = some .uniqueItems from rfl)).trans
    (forall_prop_of_true rfl)

theorem says_prefixItems :
    Says document inner accepts keywords value ("prefixItems", .array (allToJson nameOf schemas)) ↔
      ∀ slot ∈ value.elements.zip schemas, accepts slot.1 (.object (slot.2.toJson nameOf)) := by
  refine (says_iff (show Keyword.ofName? "prefixItems" = some .prefixItems from rfl)).trans ?_
  show (∀ slot ∈ value.elements.zip (allToJson nameOf schemas), accepts slot.1 slot.2) ↔ _
  rw [allToJson_eq, List.zip_map_right, List.forall_mem_map]
  exact Iff.rfl

theorem natural?_ofNat (n : Nat) : (Numeral.ofNat n).natural? = some n :=
  congrArg some (Digits.toNat_ofNat n)

theorem says_minItems {least : Nat} :
    Says document inner accepts keywords value ("minItems", Json.ofNat least) ↔
      (value.typeName? = some "array" → least ≤ value.elements.length) := by
  refine (says_iff (show Keyword.ofName? "minItems" = some .minItems from rfl)).trans ?_
  refine imp_congr_right fun _ => ?_
  constructor
  · rintro ⟨numeral, least', hargument, hleast, hlength⟩
    cases hargument
    cases (natural?_ofNat least).symm.trans hleast
    exact hlength
  · exact fun hlength => ⟨_, least, rfl, natural?_ofNat least, hlength⟩

theorem says_properties {properties : List (String × JsonSchema)} :
    Says document inner accepts keywords value
        ("properties", .object (propertiesToJson nameOf properties)) ↔
      ∀ entry ∈ value.entries, ∀ schema, Entries.get? entry.1 properties = some schema →
        accepts entry.2 (.object (toJson nameOf schema)) := by
  have hlookup (name : String) := Entries.get?_map
    (fun schema : JsonSchema => Json.object (toJson nameOf schema)) name properties
  refine (says_iff (show Keyword.ofName? "properties" = some .properties from rfl)).trans ?_
  refine forall₂_congr fun entry _ => ?_
  rw [entries_object, propertiesToJson_eq, hlookup]
  simp

theorem says_required {required : List String} :
    Says document inner accepts keywords value ("required", .array (required.map .string)) ↔
      (value.typeName? = some "object" → ∀ name ∈ required, name ∈ value.entries.map Prod.fst) := by
  refine (says_iff (show Keyword.ofName? "required" = some .required from rfl)).trans ?_
  refine imp_congr_right fun _ => forall_congr' fun name => imp_congr_left ?_
  exact List.mem_map_of_injective fun _ _ => string.inj

theorem says_propertyNames :
    Says document inner accepts keywords value ("propertyNames", .object (toJson nameOf schema)) ↔
      ∀ entry ∈ value.entries, accepts (.string entry.1) (.object (toJson nameOf schema)) :=
  says_iff (show Keyword.ofName? "propertyNames" = some .propertyNames from rfl)

theorem says_additionalProperties :
    Says document inner accepts keywords value
        ("additionalProperties", .object (toJson nameOf schema)) ↔
      ∀ entry ∈ value.entries, entry.1 ∉ (namedProperties keywords).map Prod.fst →
        accepts entry.2 (.object (toJson nameOf schema)) :=
  says_iff (show Keyword.ofName? "additionalProperties" = some .additionalProperties from rfl)

theorem says_anyOf :
    Says document inner accepts keywords value ("anyOf", .array (allToJson nameOf schemas)) ↔
      ∃ schema ∈ schemas, accepts value (.object (toJson nameOf schema)) := by
  refine (says_iff (show Keyword.ofName? "anyOf" = some .anyOf from rfl)).trans ?_
  show (∃ schema ∈ allToJson nameOf schemas, accepts value schema) ↔ _
  rw [allToJson_eq]
  simp

theorem says_allOf :
    Says document inner accepts keywords value ("allOf", .array (allToJson nameOf schemas)) ↔
      ∀ schema ∈ schemas, accepts value (.object (toJson nameOf schema)) := by
  refine (says_iff (show Keyword.ofName? "allOf" = some .allOf from rfl)).trans ?_
  show (∀ schema ∈ allToJson nameOf schemas, accepts value schema) ↔ _
  rw [allToJson_eq, List.forall_mem_map]

theorem says_ref {reference : String} :
    Says document inner accepts keywords value ("$ref", .string reference) ↔
      ∃ schema, document.definition? reference = some schema ∧ accepts value schema := by
  refine (says_iff (show Keyword.ofName? "$ref" = some .ref from rfl)).trans ?_
  constructor
  · rintro ⟨_, schema, hreference, hschema, haccepts⟩
    cases hreference
    exact ⟨schema, hschema, haccepts⟩
  · rintro ⟨schema, hschema, haccepts⟩
    exact ⟨reference, schema, rfl, hschema, haccepts⟩

end

/-! What the entries of a schema say together. -/

theorem checks_iff {schema : JsonSchema} {keywords : List (String × Json)}
    (h : schema.toJson nameOf = keywords) :
    Checks document inner accepts value (.object (schema.toJson nameOf)) ↔
      ∀ entry ∈ keywords, Says document inner accepts keywords value entry := by
  rw [h]
  exact Iff.rfl

theorem checks_anything : Checks document inner accepts value (.object (toJson nameOf anything)) :=
  fun _ h => absurd h List.not_mem_nil

theorem not_checks_nothing (hinner : inner value (.object [])) :
    ¬ Checks document inner accepts value (.object (toJson nameOf nothing)) := by
  intro h
  exact h _ List.mem_cons_self .not rfl hinner

theorem checks_type {name : String} :
    Checks document inner accepts value (.object (toJson nameOf (type name))) ↔
      value.typeName? = some name := by
  rw [checks_iff (show toJson nameOf (type name) = [("type", .string name)] from rfl),
    List.forall_mem_singleton, says_type]

theorem checks_const {expected : Json} :
    Checks document inner accepts value (.object (toJson nameOf (const expected))) ↔
      value.same expected = true := by
  rw [checks_iff (show toJson nameOf (const expected) = [("const", expected)] from rfl),
    List.forall_mem_singleton, says_const]

theorem checks_array {items : JsonSchema} {unique : Bool} :
    Checks document inner accepts value (.object (toJson nameOf (array items unique))) ↔
      ∃ elements, value = .array elements ∧
        (∀ element ∈ elements, accepts element (.object (toJson nameOf items))) ∧
        (unique = true → elements.Pairwise fun element other => element.same other = false) := by
  rw [exists_array]
  cases unique with
  | false =>
    rw [checks_iff (show toJson nameOf (array items false) =
      [("type", .string "array"), ("items", .object (toJson nameOf items))] from rfl)]
    simp only [List.forall_mem_cons, says_type, says_items]
    simp [leadingItems, Entries.get?, Json.elements]
  | true =>
    rw [checks_iff (show toJson nameOf (array items true) = [("type", .string "array"),
      ("items", .object (toJson nameOf items)), ("uniqueItems", .bool true)] from rfl)]
    simp only [List.forall_mem_cons, says_type, says_items, says_uniqueItems]
    simp [leadingItems, Entries.get?, Json.elements]

theorem checks_tuple {items : List JsonSchema} {least : Nat} :
    Checks document inner accepts value (.object (toJson nameOf (tuple items least))) ↔
      ∃ elements, value = .array elements ∧
        (∀ slot ∈ elements.zip items, accepts slot.1 (.object (toJson nameOf slot.2))) ∧
        (∀ element ∈ elements.drop items.length, accepts element (.bool false)) ∧
        least ≤ elements.length := by
  have hleading (tail : List (String × Json)) : (leadingItems (("type", .string "array") ::
      ("prefixItems", .array (allToJson nameOf items)) :: tail)).length = items.length := by
    simp [leadingItems, Entries.get?, allToJson_eq]
  rw [exists_array, checks_iff (show toJson nameOf (tuple items least) = [("type", .string "array"),
    ("prefixItems", .array (allToJson nameOf items)), ("items", .bool false),
    ("minItems", .ofNat least)] from rfl)]
  simp only [List.forall_mem_cons, says_type, says_prefixItems, says_items, hleading, says_minItems,
    List.not_mem_nil, IsEmpty.forall_iff, implies_true, and_true]
  refine and_congr_right fun htype => and_congr_right fun _ => and_congr_right fun _ => ?_
  exact forall_prop_of_true htype

theorem checks_record {names : Option JsonSchema} {values : JsonSchema} :
    Checks document inner accepts value (.object (toJson nameOf (record names values))) ↔
      ∃ entries, value = .object entries ∧
        (∀ schema ∈ names, ∀ entry ∈ entries,
          accepts (.string entry.1) (.object (toJson nameOf schema))) ∧
        ∀ entry ∈ entries, accepts entry.2 (.object (toJson nameOf values)) := by
  rw [exists_object]
  cases names with
  | none =>
    rw [checks_iff (show toJson nameOf (record none values) = [("type", .string "object"),
      ("additionalProperties", .object (toJson nameOf values))] from rfl)]
    simp only [List.forall_mem_cons, says_type, says_additionalProperties]
    simp [namedProperties, Entries.get?, Json.entries]
  | some schema =>
    rw [checks_iff (show toJson nameOf (record (some schema) values) = [("type", .string "object"),
      ("propertyNames", .object (toJson nameOf schema)),
      ("additionalProperties", .object (toJson nameOf values))] from rfl)]
    simp only [List.forall_mem_cons, says_type, says_propertyNames, says_additionalProperties]
    simp [namedProperties, Entries.get?, Json.entries]

theorem checks_object {properties : List (String × JsonSchema)} {required : List String} :
    Checks document inner accepts value (.object (toJson nameOf (object properties required))) ↔
      ∃ entries, value = .object entries ∧
        (∀ entry ∈ entries, ∀ schema, Entries.get? entry.1 properties = some schema →
          accepts entry.2 (.object (toJson nameOf schema))) ∧
        ∀ name ∈ required, name ∈ entries.map Prod.fst := by
  rw [exists_object]
  -- the keyword for required names is left out if there are none
  cases required with
  | nil =>
    rw [checks_iff (show toJson nameOf (object properties []) = [("type", .string "object"),
      ("properties", .object (propertiesToJson nameOf properties))] from rfl)]
    simp only [List.forall_mem_cons, says_type, says_properties, List.not_mem_nil,
      IsEmpty.forall_iff, implies_true, and_true]
  | cons first rest =>
    rw [checks_iff (show toJson nameOf (object properties (first :: rest)) =
      [("type", .string "object"), ("properties", .object (propertiesToJson nameOf properties)),
        ("required", .array ((first :: rest).map .string))] from rfl)]
    rw [List.forall_mem_cons, List.forall_mem_cons, List.forall_mem_singleton, says_type,
      says_properties, says_required]
    exact and_congr_right fun htype => and_congr_right fun _ => forall_prop_of_true htype

theorem checks_anyOf {members : List JsonSchema} :
    Checks document inner accepts value (.object (toJson nameOf (anyOf members))) ↔
      ∃ schema ∈ members, accepts value (.object (toJson nameOf schema)) := by
  rw [checks_iff (show toJson nameOf (anyOf members) =
    [("anyOf", .array (allToJson nameOf members))] from rfl), List.forall_mem_singleton, says_anyOf]

theorem checks_allOf {members : List JsonSchema} :
    Checks document inner accepts value (.object (toJson nameOf (allOf members))) ↔
      ∀ schema ∈ members, accepts value (.object (toJson nameOf schema)) := by
  rw [checks_iff (show toJson nameOf (allOf members) =
    [("allOf", .array (allToJson nameOf members))] from rfl), List.forall_mem_singleton, says_allOf]

theorem checks_ref {slot : LazyId} :
    Checks document inner accepts value (.object (toJson nameOf (ref slot))) ↔
      ∃ schema, document.definition? (pointer (nameOf slot)) = some schema ∧
      accepts value schema := by
  rw [checks_iff (show toJson nameOf (ref slot) =
    [("$ref", .string (pointer (nameOf slot)))] from rfl), List.forall_mem_singleton, says_ref]

end JsonSchema

end TypeGraph
