import TypeGraph.JsonSchema.Basic

/-!
# JSON Schema documents

A schema of a graph is written as a document in two steps. `SchemaGraph.render` makes a `JsonSchema`
of one schema, in which every lazy is a reference; `SchemaGraph.document` collects the lazies that
are referred to, from the root and from each other, as the `$defs` of the document.

Schemas without a counterpart in JSON, such as dates and maps, are errors.
-/

namespace TypeGraph

namespace SchemaGraph

/-! ## Rendering -/

def unsupported {α : Type} (feature : Feature) : Except Halt α :=
  throw (.failed (.unsupportedFeature .jsonSchema feature))

def renderPrimitive : Primitive → Except Halt JsonSchema
  | .string => pure (.type "string")
  | .number => pure (.type "number")
  | .boolean => pure (.type "boolean")
  | .null => pure (.type "null")
  | .any | .unknown => pure .anything
  | .never => pure .nothing
  | p => unsupported (.kind (.primitive p))

def renderLiteral : Literal → Except Halt JsonSchema
  | .string value => pure (.const (.string value))
  | .number value =>
    if value.isFinite then pure (.const (.ofBinary64 value)) else unsupported .nonFiniteNumber
  | .boolean value => pure (.const (.bool value))
  | .bigint _ => unsupported .bigintLiteral
  | .null => pure (.const .null)

/-- What stands in a property or a slot, and whether it must be there. -/
def slotContent (graph : SchemaGraph) (id : SchemaId) : SchemaId × Bool :=
  match graph.get id with
  | .optional inner => (inner, false)
  | _ => (id, true)

/-- The number of slots up to the last one that must be filled. -/
def leastLength (required : List Bool) : Nat :=
  (required.reverse.dropWhile (! ·)).length

/-- Whether a key schema admits every name, as string and number do. -/
def admitsAllNames : Schema → Bool
  | .primitive .string | .primitive .number => true
  | _ => false

/-- The JSON Schema of a schema, from at most `depth` levels of schemas inside schemas. -/
def renderWithin (graph : SchemaGraph) : Nat → SchemaId → Except Halt JsonSchema
  | 0, _ => throw .endless
  | depth + 1, id =>
    let render := renderWithin graph depth
    match graph.get id with
    | .primitive p => renderPrimitive p
    | .literal value => renderLiteral value
    | .array element => return .array (← render element) false
    | .set element => return .array (← render element) true
    | .record key value => do
      -- a key schema is looked at behind its lazies, and written as it stands
      let resolved ← orHalt (graph.resolve key)
      let names ← if admitsAllNames resolved then pure none else some <$> render key
      return .record names (← render value)
    | .map _ _ => unsupported (.kind .map)
    | .object properties => do
      let slots := properties.mapValues graph.slotContent
      let rendered ← slots.entries.mapM fun slot => return (slot.1, ← render slot.2.1)
      return .object rendered (slots.entries.filterMap fun slot =>
        if slot.2.2 then some slot.1 else none)
    | .optional _ => unsupported (.kind (.primitive .undefined))
    | .union members => return .anyOf (← members.mapM render)
    | .intersection members => return .allOf (← members.mapM render)
    | .tuple elements => do
      let slots := elements.map graph.slotContent
      return .tuple (← slots.mapM fun slot => render slot.1) (leastLength (slots.map Prod.snd))
    | .function _ _ => unsupported (.kind .function)
    | .lazy slot => pure (.ref slot)

/-- The JSON Schema of a schema. Schemas inside schemas without repetition are at most as many
levels as there are schemas. -/
def render (graph : SchemaGraph) (id : SchemaId) : Except Halt JsonSchema :=
  graph.renderWithin (graph.size + 1) id

/-! ## Documents -/

/-- The JSON Schemas of the pending lazies and of those that they refer to, each once, in the order
in which they are first referred to; `unseen` are the lazies that have none yet. -/
def renderLazies (graph : SchemaGraph) (unseen : List LazyId) :
    List LazyId → Except Halt (List (LazyId × JsonSchema))
  | [] => pure []
  | slot :: pending =>
    if h : slot ∈ unseen then do
      have : (unseen.erase slot).length < unseen.length := by
        have := List.length_pos_of_mem h
        rw [List.length_erase_of_mem h]
        omega
      let target ← orHalt (graph.lazyTarget slot)
      let schema ← graph.render target
      return (slot, schema) ::
        (← renderLazies graph (unseen.erase slot) (pending ++ schema.references))
    else renderLazies graph unseen pending
  termination_by pending => (unseen.length, pending.length)

/-- The vocabulary that documents declare. -/
def vocabulary : String := "https://json-schema.org/draft/2020-12/schema"

/-- The document of a schema. Lazies of one name share an entry of `$defs`: the place of the first
and the schema of the last. -/
def document (graph : SchemaGraph) (root : SchemaId) : Except Halt Json := do
  let schema ← graph.render root
  let lazies ← graph.renderLazies (List.range graph.lazies.size) schema.references
  let defs := Entries.ofList (lazies.map fun entry =>
    (graph.lazyName entry.1, Json.object (entry.2.toJson graph.lazyName)))
  return .object (("$schema", .string vocabulary) :: schema.toJson graph.lazyName
    ++ (if defs.isEmpty then [] else [("$defs", .object defs)]))

end SchemaGraph

end TypeGraph
