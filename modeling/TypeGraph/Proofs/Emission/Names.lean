import TypeGraph.Proofs.Definition.Dependencies
import TypeGraph.Proofs.Definition.Inlining
import TypeGraph.Proofs.Extraction.Visit
import TypeGraph.Proofs.Registry.History
import TypeGraph.Proofs.SchemaGraph.Assembly
import TypeGraph.Proofs.SchemaGraph.Imports
import TypeGraph.Proofs.TypeExpr.Spelling
import TypeGraph.Proofs.Validator.Spelling
import TypeGraph.TypeStore.Text

/-!
# No name is captured

Identifiers are made by registries, which give out type names that are not reserved. So the
identifiers of every extraction are apart from the names that emitters write on their own, and an
identifier in emitted text is a reference. Only numbers that are not finite are spelled with names
that registries may give out.

Main results:

* `extracted_noCapture`: in what is emitted from extractions, which occurrences of identifiers are
  references.
* `namedNaN_captured`: a number that is read as the definition it stands in.
-/

namespace TypeGraph

open Source

/-! ## Identifiers of extractions -/

namespace Registry

variable {κ : Type} [DecidableEq κ] {registry : Registry κ}

/-- The registry of a program that checks for overflow has proper names only. -/
structure Proper (registry : Registry κ) : Prop where
  wraps : registry.wraps = false
  definitions : registry.definitions.Proper

omit [DecidableEq κ] in
theorem Proper.empty : (Registry.empty : Registry κ).Proper :=
  ⟨rfl, fun _ h => absurd h List.not_mem_nil⟩

theorem Proper.register (h : registry.Proper) (key : κ) (label : Option String) :
    (registry.register key label).2.Proper := by
  refine ⟨h.wraps, fun identifier hi => ?_⟩
  rw [keys_register, List.mem_append, List.mem_singleton] at hi
  rcases hi with hi | rfl
  · exact h.definitions identifier hi
  · refine ⟨registry.isTypeName_freeIdentifier label ?_, registry.freeIdentifier_not_reserved label⟩
    rw [h.wraps]
    exact fun hwraps => absurd hwraps Bool.false_ne_true

omit [DecidableEq κ] in
theorem Proper.complete (h : registry.Proper) (identifier : String) (body : Node) :
    (registry.complete identifier body).Proper := by
  refine ⟨h.wraps, fun other ho => ?_⟩
  rw [keys_complete] at ho
  exact h.definitions other ho

end Registry

namespace Checker

variable {checker : Checker} {policy : Policy} {s s' : WalkState} {types : List TypeId}
  {nodes : List Node}

/-- Walks keep to proper names, whatever types they meet. -/
theorem Visits.proper (h : Visits checker policy s types nodes s') (hs : s.registry.Proper) :
    s'.registry.Proper := by
  -- steps that register give out a proper name, all others keep the keys as they are
  induction h with
  | nil | met => exact hs
  | cons _ _ ihFirst ihRest => exact ihRest (ihFirst hs)
  | level _ _ _ ih => exact ih hs
  | definition _ _ _ _ _ _ ih => exact (ih (hs.register _ _)).complete _ _
  | recurs => exact hs.register _ _
  | inPlace _ _ _ _ _ _ _ _ ih => exact ih hs
  | late _ _ _ _ _ _ _ _ ih => exact (ih hs).complete _ _

theorem extract_proper {type : TypeId} {extraction : Extraction}
    (h : checker.extract policy type = .ok extraction) : extraction.definitions.Proper := by
  obtain ⟨root, s, hvisits, -, rfl⟩ := exists_visits_of_extract h
  have hproper : s.registry.definitions.Proper := (hvisits.proper .empty).definitions
  -- inlining only takes definitions away
  cases policy with
  | named | aliasesOnly => exact hproper
  | recursiveOnly =>
    intro identifier hi
    rw [Policy.finish, DefinitionMap.keys_inlineAcyclic, DefinitionMap.cyclicIdentifiers] at hi
    exact hproper identifier (List.mem_of_mem_filter hi)

end Checker

namespace SchemaGraph

variable {graph : SchemaGraph} {registry registry' : Registry LazyId}

/-- A pass keeps to proper names if each of its visits does. -/
theorem proper_mapM {visit : SchemaId → Import Node}
    (hvisit : ∀ {id registry node registry'}, registry.Proper →
      (visit id).run.run registry = (.ok node, registry') → registry'.Proper)
    {ids : List SchemaId} {nodes : List Node} (hregistry : registry.Proper)
    (h : (ids.mapM visit).run.run registry = (.ok nodes, registry')) : registry'.Proper := by
  induction ids generalizing registry nodes with
  | nil =>
    cases h
    exact hregistry
  | cons id rest ih =>
    rw [List.mapM_cons] at h
    obtain ⟨first, registry₁, hfirst, h⟩ := run_bind_eq_ok h
    obtain ⟨others, registry₂, hothers, h⟩ := run_bind_eq_ok h
    cases h
    exact ih (hvisit hregistry hfirst) hothers

/-- Imports keep to proper names, whatever graph they read. -/
theorem proper_importWithin {depth : Nat} {id : SchemaId} {node : Node}
    (hregistry : registry.Proper)
    (h : (graph.importWithin depth id).run.run registry = (.ok node, registry')) :
    registry'.Proper := by
  induction depth generalizing id node registry registry' with
  | zero => cases h
  | succ depth ih =>
    by_cases hplain : ∀ slot, graph.get id ≠ .lazy slot
    · rw [importWithin_eq hplain] at h
      obtain ⟨parts, registry₁, hparts, h⟩ := run_bind_eq_ok h
      have hproper := proper_mapM ih hregistry hparts
      cases hassemble : (graph.get id).assemble parts with
      | error => rw [hassemble] at h; cases h
      | ok node =>
        rw [hassemble] at h
        cases h
        exact hproper
    · obtain ⟨slot, hslot⟩ := not_forall_not.mp hplain
      rw [importWithin, hslot] at h
      dsimp only at h
      cases hlookup : registry.lookup slot with
      | some reference =>
        rw [run_intern_of_lookup hlookup] at h
        cases h
        exact hregistry
      | none =>
        -- the target is read into a registry that has the lazy already
        have hregistered := hregistry.register slot (some (graph.lazyName slot))
        rcases hresolve :
            (do (graph.importWithin depth) (← orHalt (graph.lazyTarget slot)) : Import Node).run.run
          (registry.register slot (some (graph.lazyName slot))).2 with ⟨⟨halt⟩ | ⟨body⟩, registry₁⟩
        · rw [run_intern_of_error hlookup hresolve] at h
          cases h
        · rw [run_intern_of_new hlookup hresolve] at h
          cases h
          obtain ⟨target, registry₂, htarget, hresolve⟩ := run_bind_eq_ok hresolve
          cases hslot : graph.lazyTarget slot with
          | error => rw [hslot] at htarget; cases htarget
          | ok =>
            rw [hslot] at htarget
            cases htarget
            exact (ih hregistered hresolve).complete _ _

theorem toExtraction_proper {root : SchemaId} {extraction : Extraction}
    (h : graph.toExtraction root = .ok extraction) : extraction.definitions.Proper := by
  rw [toExtraction] at h
  rcases hrun :
      (graph.importWithin ((graph.lazies.size + 1) * (graph.size + 1)) root).run.run .empty with
    ⟨⟨halt⟩ | ⟨node⟩, registry⟩
  · rw [hrun] at h
    cases h
  · rw [hrun] at h
    cases h
    exact (proper_importWithin .empty hrun).definitions

end SchemaGraph

/-! ## Emitted names -/

/-- The names that emitters write on their own and that have the form of an identifier, and the
namespace of the one dialect that has none. -/
def ownNames : List String := ["z", "Type", "RegExp", "Date", "Set", "Map", "Record"]

/-- In what is emitted, identifiers are references. -/
structure DefinitionMap.NoCapture (definitions : DefinitionMap) : Prop where
  /-- No identifier is a name that emitters write on their own. -/
  own : ∀ name ∈ ownNames, definitions.contains name = false
  /-- The identifiers in a validator are its references, in order, exactly if no number in it that
  is not finite is spelled like a definition. -/
  validators : ∀ {dialect : Validator.Dialect} {node : Node} {text : String},
    Validator.emit dialect definitions node = .ok text →
      (definitions.among (names (tokens text.toList)) = definitions.among node.mentions ↔
        ∀ x name, Node.Occurs (.literal (.number x)) node → x.spelling? = some name →
          definitions.contains name = false)
  /-- The identifiers in a type are its references, in order. -/
  types : ∀ (style : DeclarationStyle) {node : Node} {type : TypeExpr},
    TypeExpr.ofNode definitions node = .ok type →
      definitions.among (names (tokens (type.print style).toList)) = definitions.among node.mentions

theorem DefinitionMap.Proper.noCapture {definitions : DefinitionMap} (h : definitions.Proper) :
    definitions.NoCapture where
  own name hname := by
    -- each of the names is reserved, or starts in lower case
    refine h.contains_eq_false ?_
    revert name
    decide
  validators htext := by
    rw [Validator.names_tokens h htext, Node.among_names_iff]
    simp only [h.among_words]
    constructor
    · exact fun hwords x name hx => hwords (.number x) hx x name rfl
    · rintro hnumbers value hvalue x name rfl
      exact hnumbers x name hvalue
  types style _ _ htype := TypeExpr.names_tokens h style htype

/-- Extractions of types, under any policy, and of schemas. -/
inductive Extraction.Produced : Extraction → Prop
  | type {checker : Checker} {policy : Policy} {type : TypeId} {extraction : Extraction}
    (extracted : checker.extract policy type = .ok extraction) : Produced extraction
  | schema {graph : SchemaGraph} {root : SchemaId} {extraction : Extraction}
    (imported : graph.toExtraction root = .ok extraction) : Produced extraction

/-- In what is emitted from the extraction of a type or of a schema, an identifier is a reference,
unless it is what a number that is not finite is written with. -/
theorem extracted_noCapture {extraction : Extraction} (h : extraction.Produced) :
    extraction.definitions.NoCapture := by
  cases h with
  | type extracted => exact (Checker.extract_proper extracted).noCapture
  | schema imported => exact (SchemaGraph.toExtraction_proper imported).noCapture

/-- The alias `Date` of objects that hold a date. -/
def namedDate : TypeStore :=
  let (date, store) := TypeStore.reference {} "Date" []
  let (object, store) := store.object { properties := [⟨"at", date, false⟩] }
  (store.addAlias "Date" [] object).2

/-- The identifier of the alias is apart from the class. -/
theorem namedDate_noCapture :
    namedDate.checker.extract .named 2 = .ok ⟨.reference "Date2" (some "Date"),
      .ofList [("Date2", ⟨.object [("at", .primitive .date)], some "Date"⟩)]⟩ ∧
    DefinitionMap.NoCapture
      (.ofList [("Date2", ⟨.object [("at", .primitive .date)], some "Date"⟩)]) := by
  have hextract : namedDate.checker.extract .named 2 = .ok ⟨.reference "Date2" (some "Date"),
      .ofList [("Date2", ⟨.object [("at", .primitive .date)], some "Date"⟩)]⟩ := by
    rfl
  exact ⟨hextract, extracted_noCapture (.type hextract)⟩

/-- The alias `NaN` of objects that hold not-a-number. -/
def namedNaN : TypeStore :=
  let (number, store) := TypeStore.literal {} (.number .nan)
  let (object, store) := store.object { properties := [⟨"value", number, false⟩] }
  (store.addAlias "NaN" [] object).2

/-- What the alias is a name of. -/
def holdsNaN : Node := .object [("value", .literal (.number .nan))]

/-- The identifier of the alias is the name of the number: inside the definition, the number is read
as the definition. -/
theorem namedNaN_captured :
    namedNaN.checker.extract .named 2 =
      .ok ⟨.reference "NaN" (some "NaN"), .ofList [("NaN", ⟨holdsNaN, some "NaN"⟩)]⟩ ∧
    Validator.emitModule .zod false (.ofList [("NaN", ⟨holdsNaN, some "NaN"⟩)])
      (.reference "NaN" (some "NaN"))
        "Root" =
      .ok "const NaN = z.object(\x7b value: z.literal(NaN) \x7d)\nconst Root = NaN\n" ∧
    Validator.emit .zod (.ofList [("NaN", ⟨holdsNaN, some "NaN"⟩)]) holdsNaN =
      .ok "z.object(\x7b value: z.literal(NaN) \x7d)" ∧
    names (tokens "z.object(\x7b value: z.literal(NaN) \x7d)".toList) = ["z", "z", "NaN"] ∧
    holdsNaN.mentions = [] := by
  have horder :
      DefinitionMap.dependencyOrder (.ofList [("NaN", ⟨holdsNaN, some "NaN"⟩)]) = ["NaN"] :=
    List.perm_singleton.mp (DefinitionMap.dependencyOrder_perm _)
  refine ⟨rfl, ?_, by decide +kernel, by decide +kernel, rfl⟩
  rw [Validator.emitModule, Validator.moduleLines, horder]
  decide +kernel

end TypeGraph
