import TypeGraph.JsonSchema.Document
import TypeGraph.Proofs.JsonSchema.Rendering

/-!
# Where documents fail

A document fails for features that JSON Schema lacks, and where a lazy cannot be followed. A schema
graph has no references, so it fails for none.

Main results:

* `SchemaGraph.faults_document_of_allows`: a document fails only for what its schemas and lazies
  allow.
* `SchemaGraph.faults_document`: the document of a schema graph does not fail for a reference.
-/

namespace TypeGraph

namespace SchemaGraph

variable {α : Type} {graph : SchemaGraph} {allowed : Error → Prop}

/-- The halt is for an allowed error. -/
def HaltAllowed (allowed : Error → Prop) (halt : Halt) : Prop :=
  ∀ error, halt = .failed error → allowed error

/-- All that can go wrong with a document is allowed. -/
structure Allows (graph : SchemaGraph) (allowed : Error → Prop) : Prop where
  feature : ∀ feature, allowed (.unsupportedFeature .jsonSchema feature)
  resolve : ∀ id, Faults allowed (graph.resolve id)
  target : ∀ slot < graph.lazies.size, Faults allowed (graph.lazyTarget slot)

theorem faults_orHalt {result : Except Error α} (h : Faults allowed result) :
    Faults (HaltAllowed allowed) (orHalt result : Except Halt α) := by
  cases result with
  | ok value => exact .pure value
  | error error =>
    refine .throw ?_
    intro other ho
    cases ho
    exact h error rfl

theorem faults_endless : Faults (HaltAllowed allowed) (throw .endless : Except Halt α) :=
  .throw fun _ he => Halt.noConfusion he

section

variable (h : graph.Allows allowed)

include h

theorem faults_renderWithin (depth : Nat) (id : SchemaId) :
    Faults (HaltAllowed allowed) (graph.renderWithin depth id) := by
  -- induction on the depth; every part is rendered with one level less
  induction depth generalizing id with
  | zero => exact faults_endless
  | succ depth ih =>
    refine faults_renderWithin_succ (fun feature => ?_) (fun key => faults_orHalt (h.resolve key))
      fun part _ => ih part
    intro error he
    cases he
    exact h.feature feature

theorem faults_document_of_allows (root : SchemaId) :
    Faults (HaltAllowed allowed) (graph.document root) :=
  faults_document_of_render (fun id => faults_renderWithin h _ id)
    (fun slot hs => faults_orHalt (h.target slot hs)) root

end

/-- The error is not about a reference. -/
def Resolved (error : Error) : Prop := ∀ identifier, error ≠ .unresolvedReference identifier

variable (graph)

theorem faults_lazyTarget (slot : LazyId) : Faults Resolved (graph.lazyTarget slot) := by
  unfold lazyTarget
  split
  · exact .pure _
  · exact .throw fun _ => Error.noConfusion

theorem faults_follow (steps : Nat) (id : SchemaId) : Faults Resolved (graph.follow steps id) := by
  -- induction on the steps, each of which goes through one lazy schema
  induction steps generalizing id with
  | zero =>
    unfold follow
    cases graph.get id with
    | «lazy» slot => exact .throw fun _ => Error.noConfusion
    | _ => exact .pure _
  | succ steps ih =>
    unfold follow
    cases graph.get id with
    | «lazy» slot => exact (graph.faults_lazyTarget slot).bind fun target => ih target
    | _ => exact .pure _

/-- The document of a schema graph does not fail for a reference. -/
theorem faults_document (root : SchemaId) : Faults (HaltAllowed Resolved) (graph.document root) :=
  faults_document_of_allows
    ⟨fun _ _ => Error.noConfusion, graph.faults_follow _,
      fun slot _ => graph.faults_lazyTarget slot⟩ root

end SchemaGraph

end TypeGraph
