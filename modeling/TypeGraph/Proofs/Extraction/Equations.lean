import TypeGraph.Proofs.Extraction.Reads
import TypeGraph.TypeStore.Text

/-!
# Extraction as a system of equations

Where all named types become definitions, the registry can be taken out of extraction afterwards.
`Checker.reading` reads types like a walk does, first match wins, but it keeps nothing: the
identifiers of named types are given to it. The result of an extraction solves the equations that
this makes for the root and for the body of each definition, and the identifiers that were given out
one by one are the same in all of them.

Main results:

* `Checker.reading_of_reads`: what types read as, `Checker.reading` computes.
* `TypeStore.extract_solves`: an extraction solves its equations.
-/

namespace TypeGraph

namespace Checker

/-! ## The equations -/

/-- A reading fails or gives a node; it keeps nothing. -/
abbrev Reading := ExceptT Halt Id

/-- A type where its name counts: the reference to its identifier. -/
def readingByName (checker : Checker) (names : TypeKey → Option String)
    (structural : TypeId → Reading Node) (type : TypeId) : Reading Node := do
  let info := checker.describe type
  if info.aliasName.isSome || info.isDeclared then
    let label ← checker.textOf type
    match names (checker.keyOf type) with
    | some identifier => return .reference identifier (some label)
    -- without an identifier there is nothing to refer to
    | none => throw (.failed (.unknownType label))
  else structural type

/-- A type by the identifiers of the named types below it, read to at most `depth` levels. In its
own body a type is read in spite of its name. -/
def reading (checker : Checker) (names : TypeKey → Option String) :
    Nat → Mode → TypeId → Reading Node
  | 0, _, _ => throw .endless
  | depth + 1, mode, type =>
    let visit := reading checker names depth .reference
    let structural := checker.readStructure visit
    checker.readType visit
      (match mode with
        | .reference => checker.readingByName names structural
        | .body => structural)
      type

section

variable {checker : Checker} {names : TypeKey → Option String} {depth : Nat} {type : TypeId}

theorem reading_level {mode : Mode} (h : mode = .body ∨ checker.isNamed type = false) :
    checker.reading names (depth + 1) mode type =
      checker.readShape (checker.reading names depth .reference) type (checker.shapeOf type) := by
  unfold reading
  rw [readType_eq, shapeOf, TypeInfo.shape]
  -- what is recognised is read in spite of any name; else the mode says whether there is one
  cases hr : (checker.describe type).recognised? with
  | some shape => rfl
  | none =>
    cases mode with
    | body => exact readStructure_eq ..
    | reference =>
      have hname : ((checker.describe type).aliasName.isSome ||
          (checker.describe type).isDeclared) = false := by
        simpa [isNamed, TypeInfo.isNamed, hr] using h
      simp only [readingByName, hname, Bool.false_eq_true, if_false]
      exact readStructure_eq ..

theorem reading_named {identifier label : String} (named : checker.isNamed type = true)
    (text : checker.text type = some label)
    (identifier? : names (checker.keyOf type) = some identifier) :
    checker.reading names (depth + 1) .reference type =
      pure (.reference identifier (some label)) := by
  simp only [isNamed, TypeInfo.isNamed, Bool.and_eq_true, Option.isNone_iff_eq_none] at named
  unfold reading
  rw [readType_eq, named.1]
  simp only [readingByName, named.2, if_true, textOf, text, identifier?, pure_bind]

theorem reading_of_inner {mode : Mode} {nodes : List Node}
    (h : mode = .body ∨ checker.isNamed type = false) (readable : checker.Readable type)
    (hinner : (checker.shapeOf type).inner.mapM (checker.reading names depth .reference) =
      pure nodes) :
    checker.reading names (depth + 1) mode type = pure (checker.bodyOf type nodes) := by
  rw [reading_level h, readShape, hinner, pure_bind, readable]
  rfl

/-- What types read as is computed from some depth on. -/
theorem reading_of_reads {types : List TypeId} {nodes : List Node}
    (h : Reads checker .named names types nodes) :
    ∃ enough, ∀ depth, enough ≤ depth →
      types.mapM (checker.reading names depth .reference) = pure nodes := by
  -- a single type takes one level more than the types inside
  have hone {type : TypeId} {node : Node} {enough : Nat}
      (hread : ∀ depth, enough ≤ depth →
        checker.reading names (depth + 1) .reference type = pure node) :
      ∃ enough, ∀ depth, enough ≤ depth →
        [type].mapM (checker.reading names depth .reference) = pure [node] := by
    refine ⟨enough + 1, ?_⟩
    intro depth hle
    obtain ⟨more, rfl⟩ := Nat.exists_eq_add_of_le hle
    have h := hread (enough + more) (Nat.le_add_right _ _)
    rw [Nat.add_right_comm] at h
    rw [List.mapM_cons, List.mapM_nil, h]
    simp
  -- induction on how the types are read, with the larger of two depths for two parts
  induction h with
  | nil => exact ⟨0, fun _ _ => rfl⟩
  | @cons type types node nodes first rest ihfirst ihrest =>
    obtain ⟨enough, hfirst⟩ := ihfirst
    obtain ⟨enough', hrest⟩ := ihrest
    refine ⟨max enough enough', ?_⟩
    intro depth hle
    rw [← List.singleton_append, List.mapM_append,
      hfirst depth (Nat.le_trans (Nat.le_max_left _ _) hle),
      hrest depth (Nat.le_trans (Nat.le_max_right _ _) hle)]
    simp
  | level unnamed inner readable ih =>
    obtain ⟨enough, hinner⟩ := ih
    exact hone fun depth hle => reading_of_inner (.inr unnamed) readable (hinner depth hle)
  | named named identifier? text =>
    exact hone fun depth (_ : 0 ≤ depth) => reading_named named text identifier?
  | inPlace named inPlace inner readable ih => exact absurd inPlace Bool.false_ne_true

theorem reading_of_readsOne {node : Node} (h : Reads checker .named names [type] [node]) :
    ∃ enough, ∀ depth, enough ≤ depth →
      checker.reading names depth .reference type = pure node := by
  obtain ⟨enough, hread⟩ := reading_of_reads h
  refine ⟨enough, ?_⟩
  intro depth hle
  -- reading one type is reading the list of it
  have hone := congrArg ExceptT.run (hread depth hle)
  rw [List.mapM_cons, List.mapM_nil, ExceptT.run_bind] at hone
  apply ExceptT.ext
  cases hr : (checker.reading names depth .reference type).run with
  | error halt =>
    rw [hr] at hone
    cases hone
  | ok other =>
    rw [hr] at hone
    cases hone
    rfl

theorem reading_of_readsBody {body : Node} (h : ReadsBody checker .named names type body) :
    ∃ enough, ∀ depth, enough ≤ depth → checker.reading names depth .body type = pure body := by
  obtain ⟨nodes, hinner, hreadable, rfl⟩ := h
  obtain ⟨enough, hread⟩ := reading_of_reads hinner
  refine ⟨enough + 1, ?_⟩
  intro depth hle
  obtain ⟨more, rfl⟩ := Nat.exists_eq_add_of_le hle
  rw [Nat.add_right_comm]
  exact reading_of_inner (.inl rfl) hreadable (hread (enough + more) (Nat.le_add_right _ _))

end

/-- By these names of the registered identities, an extraction solves the equations of its type: the
root is the reading of the type, and the body of each definition the reading of its own type as a
body, whatever depth from some depth on they are read to. -/
structure Solves (checker : Checker) (type : TypeId) (extraction : Extraction)
    (names : OrderedMap TypeKey String) : Prop where
  /-- Every identifier of the definitions is the name of an identity, in the same order. -/
  identifiers : names.values = extraction.definitions.keys
  injective : ∀ key other identifier, names.get? key = some identifier →
    names.get? other = some identifier → key = other
  root : ∃ enough, ∀ depth, enough ≤ depth →
    (checker.reading names.get? depth .reference type).run = .ok extraction.root
  bodies : ∀ key identifier, names.get? key = some identifier →
    key = checker.keyOf key.1 ∧ checker.isNamed key.1 = true ∧
      ∃ definition label, extraction.definitions.get? identifier = some definition ∧
        checker.text key.1 = some label ∧ definition.label = some label ∧
        ∃ enough, ∀ depth, enough ≤ depth →
          (checker.reading names.get? depth .body key.1).run = .ok definition.node

end Checker

namespace TypeStore

open Checker

/-- A named extraction solves its own equations. -/
theorem extract_solves (store : TypeStore) (type : TypeId) (extraction : Extraction)
    (h : store.checker.extract .named type = .ok extraction) :
    ∃ names, Solves store.checker type extraction names := by
  obtain ⟨root, registry, rfl, hsound, hpending, hroot⟩ := exists_reads_of_extract h
  refine ⟨registry.identities, hsound.valid.identifiers.symm,
    fun _ _ _ => hsound.valid.key_unique, ?_, fun key identifier hi => ?_⟩
  · obtain ⟨enough, hread⟩ := reading_of_readsOne hroot
    exact ⟨enough, fun depth hle => congrArg ExceptT.run (hread depth hle)⟩
  · -- each definition is what the type of its identity reads as, by the final names
    obtain ⟨definition, hd⟩ := OrderedMap.mem_keys_iff.mp (hsound.valid.mem_keys hi)
    have hstands := hsound.standsFor hi hd
    obtain ⟨label, htext, hlabel⟩ := hstands.label
    obtain ⟨enough, hread⟩ := reading_of_readsBody (hsound.readsBody hpending hi hd)
    exact ⟨hstands.key_eq, hstands.named, definition, label, hd, htext, hlabel, enough,
      fun depth hle => congrArg ExceptT.run (hread depth hle)⟩

/-- The interface `Cell` with a number `value` and an optional `Cell` as `next`. -/
def linkedList : TypeStore :=
  let (cell, store) := declareInterface {} "Cell"
  let (number, store) := store.intrinsic .number
  let (body, store) := store.object
    { properties := [⟨"value", number, false⟩, ⟨"next", cell, true⟩] }
  store.define cell body

/-- A `Cell` refers to itself, beside `undefined`, where its `next` may be missing. -/
def linkedListExtraction : Extraction where
  root := .reference "Cell" (some "Cell")
  definitions := .ofList [("Cell",
    ⟨.object [("value", .primitive .number),
      ("next", .union (.reference "Cell" (some "Cell")) [.undefined])], some "Cell"⟩)]

theorem linkedList_solves :
    linkedList.checker.extract .named 0 = .ok linkedListExtraction ∧
      ∃ names, Solves linkedList.checker 0 linkedListExtraction names :=
  ⟨rfl, extract_solves linkedList 0 linkedListExtraction rfl⟩

end TypeStore

end TypeGraph
