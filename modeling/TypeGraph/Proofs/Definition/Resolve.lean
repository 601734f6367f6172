import TypeGraph.Proofs.Definition.Reach
import TypeGraph.Proofs.Pointers

/-!
# Following references

`DefinitionMap.resolve` follows references with a bound on their number. `Resolves` is what it is
about: following without a bound, as far as a node that is no reference. A node that is a reference
holds its identifier as a pointer to the body of the definition, so the bound is enough by what
holds of pointers: it cuts off no chain that would have ended, since a longer one passes a
definition twice.

Main results:

* `DefinitionMap.answers_resolve`: what is answered for chains that end, break or go on for ever.
* `DefinitionMap.resolve_eq_ok_iff`: a node is resolved exactly if following its references ends.
* `DefinitionMap.exists_error_of_resolve`: otherwise the error is about a reference.
-/

namespace TypeGraph.DefinitionMap

open Relation

variable {definitions : DefinitionMap}

/-- Following references from the node leads to the target, which is no reference. -/
inductive Resolves (definitions : DefinitionMap) : Node → Node → Prop where
  | stop {node : Node} (kind : node.kind ≠ .reference) : Resolves definitions node node
  | follow {identifier : String} {displayName : Option String} {body target : Node}
      (body? : definitions.node? identifier = some body)
      (resolves : Resolves definitions body target) :
      Resolves definitions (.reference identifier displayName) target

theorem Resolves.kind_ne {node target : Node} (h : Resolves definitions node target) :
    target.kind ≠ .reference := by
  induction h with
  | stop kind => exact kind
  | follow _ _ ih => exact ih

/-! ## References as pointers -/

/-- The identifier of a reference points to the body of the definition. -/
def pointers (definitions : DefinitionMap) : Pointers Node String where
  pointer?
    | .reference identifier _ => some identifier
    | _ => none
  target? := definitions.node?

theorem pointer?_eq_none_iff {node : Node} :
    definitions.pointers.pointer? node = none ↔ node.kind ≠ .reference := by
  cases node <;> simp [pointers, Node.kind]

theorem follows_iff {node next : Node} : definitions.pointers.Follows node next ↔
    ∃ identifier displayName, node = .reference identifier displayName ∧
      definitions.node? identifier = some next := by
  cases node <;> simp [Pointers.Follows, pointers]

/-- To resolve a node is to follow pointers to where they end. -/
theorem resolves_iff_ends {node target : Node} :
    Resolves definitions node target ↔ definitions.pointers.Ends node target := by
  constructor
  · intro h
    refine ⟨?_, pointer?_eq_none_iff.mpr h.kind_ne⟩
    induction h with
    | stop => exact .refl
    | follow hbody _ ih => exact .head (follows_iff.mpr ⟨_, _, rfl, hbody⟩) ih
  · rintro ⟨hway, hlast⟩
    -- induction from the target backwards
    induction hway using ReflTransGen.head_induction_on with
    | refl => exact .stop (pointer?_eq_none_iff.mp hlast)
    | head hstep _ ih =>
      obtain ⟨identifier, displayName, rfl, hbody⟩ := follows_iff.mp hstep
      exact .follow hbody ih

/-! ## The bounded search -/

/-- Following at most so many references is following at most so many pointers. -/
theorem follow_eq_chase (steps : Nat) (node : Node) : definitions.follow steps node =
    ((definitions.pointers.chase steps node).map id).mapError .unresolvedReference := by
  induction steps generalizing node with
  | zero => cases node <;> rfl
  | succ steps ih =>
    cases node with
    | reference identifier displayName =>
      cases hbody : definitions.node? identifier with
      | none =>
        rw [follow, hbody, Pointers.chase_of_broken rfl hbody]
        rfl
      | some body =>
        rw [follow, hbody, Pointers.chase_of_target rfl hbody]
        exact ih body
    | _ => rfl

theorem within_keys (definitions : DefinitionMap) :
    definitions.pointers.Within definitions.keys := by
  intro identifier body hbody
  exact node?_isSome_iff.mp (Option.isSome_of_eq_some hbody)

theorem length_keys_lt {steps : Nat} (h : definitions.size < steps) :
    definitions.keys.length < steps := by
  rwa [OrderedMap.length_keys]

/-- What is resolved is the end of a chain of references; one that breaks is reported by the
identifier without a definition, and one that never ends by some identifier. -/
theorem answers_resolve (definitions : DefinitionMap) (node : Node) :
    definitions.pointers.Answers node id .unresolvedReference (definitions.resolve node) :=
  Pointers.answers_of_chase definitions.within_keys (length_keys_lt (Nat.lt_succ_self _))
    (follow_eq_chase _ node)

/-- More steps than `resolve` takes give no other answer, unless there is no end to them. -/
theorem follow_eq_resolve {node : Node} (h : ¬ definitions.pointers.Endless node) {steps : Nat}
    (hsteps : definitions.size < steps) :
    definitions.follow steps node = definitions.resolve node := by
  rw [resolve, follow_eq_chase, follow_eq_chase, Pointers.chase_congr definitions.within_keys
    (length_keys_lt hsteps) (length_keys_lt (Nat.lt_succ_self _)) h]

/-- A node is resolved exactly if following its references ends. -/
theorem resolve_eq_ok_iff {node target : Node} :
    definitions.resolve node = .ok target ↔ Resolves definitions node target := by
  rw [resolves_iff_ends]
  refine ((definitions.answers_resolve node).ok_iff target).trans ?_
  simp only [id, exists_eq_right]

/-- A node that is not resolved leads to no node but references. -/
theorem exists_error_of_resolve {node : Node} (h : ¬ ∃ target, Resolves definitions node target) :
    ∃ identifier, definitions.resolve node = .error (.unresolvedReference identifier) := by
  have hanswers := definitions.answers_resolve node
  rcases hanswers.ways with ⟨target, htarget⟩ | ⟨identifier, hbreaks⟩ | hendless
  · exact absurd ⟨target, resolves_iff_ends.mpr htarget⟩ h
  · exact ⟨identifier, hanswers.broken identifier hbreaks⟩
  · exact hanswers.endless hendless

end TypeGraph.DefinitionMap
