import TypeGraph.Json.Reader

/-!
# Decoding JSON values

The serialized form of a value with named fields is an object with one entry a field, in any order
and among any others, or an array of the fields in their order. `Json.record` takes the fields out
of either.
-/

namespace TypeGraph

/-- Why a text is not the serialized form of a value. -/
inductive ReadError where
  /-- The text is no JSON document, or not of the right form. -/
  | malformed
  /-- A union, tuple or intersection without members. -/
  | emptyMembers
  /-- The text of an integer literal is not one. -/
  | invalidInteger (text : String)
  deriving DecidableEq

/-- The message of the reasons that have one. -/
def ReadError.message? : ReadError → Option String
  | malformed => none
  | emptyMembers => some "members requires at least one member"
  | invalidInteger text => some ("invalid bigint literal `" ++ text ++ "`")

namespace Json

/-- The greatest number of brackets that a document may have open at once where it is decoded. -/
def depthLimit : Nat := 127

/-- A value inside a larger one. -/
abbrev Part (whole : Json) := { part : Json // sizeOf part < sizeOf whole }

/-- The values of all entries with the key. -/
def occurrences (key : String) (entries : List (String × Json)) : List (Part (object entries)) :=
  entries.attach.filterMap fun ⟨entry, h⟩ =>
    if entry.1 = key then
      some ⟨entry.2, by
        have := List.sizeOf_lt_of_mem h
        obtain ⟨key, value⟩ := entry
        simp at this ⊢
        omega⟩
    else none

/-- The value of the entry with the key, if there is one; two are an error. -/
def entry (key : String) (entries : List (String × Json)) :
    Except ReadError (Option (Part (object entries))) :=
  match occurrences key entries with
  | [] => pure none
  | [value] => pure (some value)
  | _ => throw .malformed

/-- The elements of an array as parts of it. -/
def elementParts (elements : List Json) : List (Part (array elements)) :=
  elements.attach.map fun ⟨element, h⟩ =>
    ⟨element, by have := List.sizeOf_lt_of_mem h; simp; omega⟩

/-- The values of the named fields, each if it is there. In an array, fields are missing from the
end, and no element is left over. -/
def record (fields : List String) (json : Json) : Except ReadError (List (Option (Part json))) :=
  match json with
  | object entries => fields.mapM fun field => entry field entries
  | array elements =>
    if fields.length < elements.length then throw .malformed
    else pure ((List.range fields.length).map fun i => (elementParts elements)[i]?)
  | _ => throw .malformed

/-- The text of a string. -/
def asString : Json → Except ReadError String
  | string text => pure text
  | _ => throw .malformed

/-- The text of a string, or nothing for `null` and for a missing field. -/
def asString? : Option Json → Except ReadError (Option String)
  | none | some null => pure none
  | some json => return some (← json.asString)

/-- Reads a document and decodes its value. -/
def parse {α : Type} (decode : Json → Except ReadError α) (text : String) : Except ReadError α :=
  match ofText? text with
  | some json => decode json
  | none => throw .malformed

end Json

end TypeGraph
