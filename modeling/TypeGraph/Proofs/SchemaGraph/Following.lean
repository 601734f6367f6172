import TypeGraph.Proofs.Definition.Resolve
import TypeGraph.Proofs.SchemaGraph.Represents

/-!
# Following lazies

`SchemaGraph.resolve` follows lazies with a bound on their number. `Resolves` is what it is about:
following without a bound, as far as a schema that is no lazy. A lazy holds its slot as a pointer to
the target, so the bound is enough by what holds of pointers: it cuts off no chain that would have
ended, since a longer one passes a slot twice. Several schemas may hold one slot; they all lead on
to the same target.

Main results:

* `SchemaGraph.answers_resolve`: what is answered for chains that end, break or go on for ever.
* `SchemaGraph.resolve_eq_ok_iff`: a schema is resolved exactly if following its lazies ends.
* `SchemaGraph.exists_error_of_resolve`: otherwise the error is about a lazy.
* `resolve_answers`: the same for references and for lazies.
-/

namespace TypeGraph

namespace SchemaGraph

open Relation

variable {graph : SchemaGraph} {id target : SchemaId} {slot : LazyId} {schema : Schema}

/-- Following lazies from the number leads to the schema, which is no lazy. -/
inductive Resolves (graph : SchemaGraph) : SchemaId → Schema → Prop where
  | stop {id : SchemaId} (plain : ∀ slot, graph.get id ≠ .lazy slot) :
      Resolves graph id (graph.get id)
  | follow {id target : SchemaId} {slot : LazyId} {schema : Schema}
      (deferred : graph.get id = .lazy slot)
      (filled : graph.target? slot = some target) (resolves : Resolves graph target schema) :
      Resolves graph id schema

/-- A number is that of a lazy or of another schema. -/
theorem lazy_or_plain (graph : SchemaGraph) (id : SchemaId) :
    (∃ slot, graph.get id = .lazy slot) ∨ ∀ slot, graph.get id ≠ .lazy slot := by
  cases graph.get id with
  | «lazy» slot => exact .inl ⟨slot, rfl⟩
  | _ => exact .inr fun _ => Schema.noConfusion

/-! ## Lazies as pointers -/

/-- The slot that a schema stands for, if it is a lazy. -/
def slot? : Schema → Option LazyId
  | .lazy slot => some slot
  | _ => none

/-- The slot of a lazy points to its target. -/
def pointers (graph : SchemaGraph) : Pointers SchemaId LazyId where
  pointer? id := slot? (graph.get id)
  target? := graph.target?

theorem pointer?_eq_some_iff :
    graph.pointers.pointer? id = some slot ↔ graph.get id = .lazy slot := by
  show slot? (graph.get id) = some slot ↔ _
  cases graph.get id <;> simp [slot?]

theorem pointer?_eq_none_iff :
    graph.pointers.pointer? id = none ↔ ∀ slot, graph.get id ≠ .lazy slot := by
  show slot? (graph.get id) = none ↔ _
  cases graph.get id <;> simp [slot?]

/-- To resolve a number is to follow pointers to where they end. -/
theorem resolves_iff_ends :
    graph.Resolves id schema ↔ ∃ last, graph.pointers.Ends id last ∧ graph.get last = schema := by
  constructor
  · intro h
    induction h with
    | stop plain => exact ⟨_, ⟨.refl, pointer?_eq_none_iff.mpr plain⟩, rfl⟩
    | follow deferred filled _ ih =>
      obtain ⟨last, ⟨hway, hlast⟩, hschema⟩ := ih
      exact ⟨last, ⟨.head ⟨_, pointer?_eq_some_iff.mpr deferred, filled⟩ hway, hlast⟩, hschema⟩
  · rintro ⟨last, ⟨hway, hlast⟩, rfl⟩
    -- induction from the end backwards
    induction hway using ReflTransGen.head_induction_on with
    | refl => exact .stop (pointer?_eq_none_iff.mp hlast)
    | head hstep _ ih =>
      obtain ⟨slot, hslot, htarget⟩ := hstep
      exact .follow (pointer?_eq_some_iff.mp hslot) htarget ih

/-! ## The bounded search -/

theorem follow_of_plain {steps : Nat} (h : ∀ slot, graph.get id ≠ .lazy slot) :
    graph.follow steps id = .ok (graph.get id) := by
  unfold follow
  split
  · rename_i slot hslot
    exact absurd hslot (h slot)
  · rename_i slot _ hslot
    exact absurd hslot (h slot)
  · rfl

theorem follow_zero_of_lazy (h : graph.get id = .lazy slot) :
    graph.follow 0 id = .error (.unresolvedLazy slot) := by
  unfold follow
  rw [h]
  rfl

theorem follow_succ_of_lazy {steps : Nat} (h : graph.get id = .lazy slot) :
    graph.follow (steps + 1) id = graph.lazyTarget slot >>= graph.follow steps := by
  rw [follow.eq_def]
  dsimp only
  rw [h]

theorem lazyTarget_eq_error (h : graph.target? slot = none) :
    graph.lazyTarget slot = .error (.unresolvedLazy slot) := by
  rw [lazyTarget, show graph.lazies[slot]?.bind LazySlot.target = none from h]
  rfl

/-- Following at most so many lazies is following at most so many pointers. -/
theorem follow_eq_chase (steps : Nat) (id : SchemaId) : graph.follow steps id =
    ((graph.pointers.chase steps id).map graph.get).mapError .unresolvedLazy := by
  -- induction on the steps: a schema that is no lazy ends both, and a lazy is a pointer to its
  -- target
  induction steps generalizing id with
  | zero =>
    rcases graph.lazy_or_plain id with ⟨slot, hslot⟩ | hplain
    · rw [follow_zero_of_lazy hslot, Pointers.chase_zero (pointer?_eq_some_iff.mpr hslot)]
      rfl
    · rw [follow_of_plain hplain, Pointers.chase_of_none (pointer?_eq_none_iff.mpr hplain)]
      rfl
  | succ steps ih =>
    rcases graph.lazy_or_plain id with ⟨slot, hslot⟩ | hplain
    · have hpointer := pointer?_eq_some_iff.mpr hslot
      rw [follow_succ_of_lazy hslot]
      cases htarget : graph.target? slot with
      | none =>
        rw [lazyTarget_eq_error htarget, Pointers.chase_of_broken hpointer htarget]
        rfl
      | some target =>
        rw [lazyTarget_eq htarget, Pointers.chase_of_target hpointer htarget]
        exact ih target
    · rw [follow_of_plain hplain, Pointers.chase_of_none (pointer?_eq_none_iff.mpr hplain)]
      rfl

theorem within_slots (graph : SchemaGraph) :
    graph.pointers.Within (List.range graph.lazies.size) := by
  intro slot target htarget
  obtain ⟨lazy, hlazy, -⟩ := Option.bind_eq_some_iff.mp htarget
  exact List.mem_range.mpr (Array.getElem?_eq_some_iff.mp hlazy).1

theorem length_slots_lt {steps : Nat} (h : graph.lazies.size < steps) :
    (List.range graph.lazies.size).length < steps := by
  rwa [List.length_range]

/-- What is resolved is the end of a chain of lazies; one that breaks is reported by the slot
without a target, and one that never ends by some slot. -/
theorem answers_resolve (graph : SchemaGraph) (id : SchemaId) :
    graph.pointers.Answers id graph.get .unresolvedLazy (graph.resolve id) :=
  Pointers.answers_of_chase graph.within_slots (length_slots_lt (Nat.lt_succ_self _))
    (follow_eq_chase _ id)

/-- More steps than `resolve` takes give no other answer, unless there is no end to them. -/
theorem follow_eq_resolve (h : ¬ graph.pointers.Endless id) {steps : Nat}
    (hsteps : graph.lazies.size < steps) : graph.follow steps id = graph.resolve id := by
  rw [resolve, follow_eq_chase, follow_eq_chase, Pointers.chase_congr graph.within_slots
    (length_slots_lt hsteps) (length_slots_lt (Nat.lt_succ_self _)) h]

/-- A schema is resolved exactly if following its lazies ends. -/
theorem resolve_eq_ok_iff : graph.resolve id = .ok schema ↔ graph.Resolves id schema := by
  rw [resolves_iff_ends]
  exact (graph.answers_resolve id).ok_iff schema

/-- A schema that is not resolved leads to lazies only. -/
theorem exists_error_of_resolve (h : ¬ ∃ schema, graph.Resolves id schema) :
    ∃ slot, graph.resolve id = .error (.unresolvedLazy slot) := by
  have hanswers := graph.answers_resolve id
  rcases hanswers.ways with ⟨last, hlast⟩ | ⟨slot, hbreaks⟩ | hendless
  · exact absurd ⟨_, resolves_iff_ends.mpr ⟨last, hlast, rfl⟩⟩ h
  · exact ⟨slot, hanswers.broken slot hbreaks⟩
  · exact hanswers.endless hendless

end SchemaGraph

/-- References to definitions and lazies of a graph are resolved by one rule: the answer says where
following them ends, or at what it breaks, and no number of steps would give another answer. -/
theorem resolve_answers :
    (∀ (definitions : DefinitionMap) (node : Node),
      definitions.pointers.Answers node id .unresolvedReference (definitions.resolve node) ∧
      (¬ definitions.pointers.Endless node → ∀ steps, definitions.size < steps →
        definitions.follow steps node = definitions.resolve node)) ∧
    ∀ (graph : SchemaGraph) (id : SchemaId),
      graph.pointers.Answers id graph.get .unresolvedLazy (graph.resolve id) ∧
      (¬ graph.pointers.Endless id → ∀ steps, graph.lazies.size < steps →
        graph.follow steps id = graph.resolve id) := by
  constructor
  · intro definitions node
    exact ⟨definitions.answers_resolve node, fun h _ => DefinitionMap.follow_eq_resolve h⟩
  · intro graph id
    exact ⟨graph.answers_resolve id, fun h _ => SchemaGraph.follow_eq_resolve h⟩

end TypeGraph
