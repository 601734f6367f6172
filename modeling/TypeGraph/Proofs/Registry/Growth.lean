import TypeGraph.Proofs.Registry.Naming

/-!
# How a registry grows

`Registry.Extends` relates a registry to a later one: what was there is there as it was,
placeholders included. Registering extends a registry; completing a definition does too, as seen
from before the definition was registered.
-/

namespace TypeGraph.Registry

variable {κ : Type} [DecidableEq κ]

/-- Everything in the first registry is in the second, as it was. -/
structure Extends (before after : Registry κ) : Prop where
  identifiers : ∀ {key : κ} {identifier : String},
    before.identifier? key = some identifier → after.identifier? key = some identifier
  definitions : ∀ {identifier : String} {definition : Definition},
    before.definitions.get? identifier = some definition →
      after.definitions.get? identifier = some definition
  pending : ∀ {identifier : String}, identifier ∈ before.definitions.keys →
    (identifier ∈ after.pending ↔ identifier ∈ before.pending)

theorem Extends.refl (registry : Registry κ) : Extends registry registry :=
  ⟨id, id, fun _ => Iff.rfl⟩

theorem Extends.mem_keys {before after : Registry κ} (h : Extends before after)
    {identifier : String} (hi : identifier ∈ before.definitions.keys) :
    identifier ∈ after.definitions.keys := by
  obtain ⟨definition, hd⟩ := OrderedMap.mem_keys_iff.mp hi
  exact OrderedMap.mem_keys_iff.mpr ⟨definition, h.definitions hd⟩

theorem Extends.trans {r₁ r₂ r₃ : Registry κ} (h : Extends r₁ r₂) (h' : Extends r₂ r₃) :
    Extends r₁ r₃ where
  identifiers hi := h'.identifiers (h.identifiers hi)
  definitions hd := h'.definitions (h.definitions hd)
  pending hi := (h'.pending (h.mem_keys hi)).trans (h.pending hi)

/-- A new key changes nothing that was there. -/
theorem Extends.register (registry : Registry κ) {key : κ} (label : Option String)
    (hnew : registry.identifier? key = none) :
    Extends registry (registry.register key label).2 where
  identifiers {other identifier} hi := by
    -- a key that is new has no identifier, and a name that is free has no definition
    rw [identifier?_register, if_neg]
    · exact hi
    · rintro rfl
      rw [hnew] at hi
      exact Option.some_ne_none _ hi.symm
  definitions {identifier definition} hd := by
    rw [get?_register, if_neg]
    · exact hd
    · rintro rfl
      exact registry.freeIdentifier_not_mem label (OrderedMap.mem_keys_iff.mpr ⟨definition, hd⟩)
  pending {identifier} hi := by
    rw [pending_register, List.mem_cons, or_iff_right]
    rintro rfl
    exact registry.freeIdentifier_not_mem label hi

/-- Completing a definition changes nothing that was there before the definition. -/
theorem Extends.complete {before after : Registry κ} (h : Extends before after)
    {identifier : String} (hnew : identifier ∉ before.definitions.keys) (body : Node) :
    Extends before (after.complete identifier body) where
  identifiers hi := h.identifiers hi
  definitions {other definition} hd := by
    rw [get?_complete, if_neg]
    · exact h.definitions hd
    · rintro rfl
      exact hnew (OrderedMap.mem_keys_iff.mpr ⟨definition, hd⟩)
  pending {other} hi := by
    rw [mem_pending_complete, h.pending hi, and_iff_left]
    rintro rfl
    exact hnew hi

/-- A registry that grows has no fewer keys. -/
theorem Extends.size_le {before after : Registry κ} (h : Extends before after)
    (hbefore : before.Valid) (hafter : after.Valid) :
    before.identities.size ≤ after.identities.size := by
  have hle := (List.subperm_of_subset before.definitions.keys_nodup fun _ => h.mem_keys).length_le
  rwa [OrderedMap.length_keys, OrderedMap.length_keys, hbefore.size_eq, hafter.size_eq] at hle

/-- What was registered on the way was not there before. -/
theorem Extends.not_mem_keys {before after : Registry κ} (h : Extends before after)
    (hbefore : before.Valid) (hafter : after.Valid) {key : κ} {identifier : String}
    (hnew : before.identifier? key = none) (hi : after.identifier? key = some identifier) :
    identifier ∉ before.definitions.keys := by
  intro hmem
  -- the identifier would have belonged to another key already, which is this one
  obtain ⟨other, ho⟩ := hbefore.exists_key hmem
  rw [hafter.key_unique hi (h.identifiers ho), ho] at hnew
  exact Option.some_ne_none _ hnew

end TypeGraph.Registry
