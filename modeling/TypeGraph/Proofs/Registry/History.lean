import TypeGraph.Proofs.Registry.Growth
import TypeGraph.Proofs.Text.TypeName

/-!
# The history of a registry

A registry changes in two ways: a new key is registered, and an identifier is completed.
`Registry.Step` is one such change, or none; `Registry.History` is what has become of an empty
registry by steps. What a step preserves holds at every moment of a history.

Main results:

* `Registry.Consistent.step`: identifiers, definitions and placeholders stay in step.
* `Registry.Keeps.step`: names and labels are given once, and new definitions come last.
* `Registry.History.isPending_iff`: a key is pending from its registration until its identifier is
  completed for the first time.
-/

namespace TypeGraph.Registry

variable {κ : Type}

/-! ## Identifiers -/

/-- A number that did not wrap leaves a type name one. -/
theorem isTypeName_numbered {wraps : Bool} {base : String} {attempt : Nat}
    (hbase : Identifier.isTypeName base = true)
    (hnumber : numberAt wraps attempt = attempt + 2) :
    Identifier.isTypeName (numbered wraps base attempt) = true := by
  rw [numbered, hnumber]
  exact Identifier.isTypeName_append hbase (Identifier.all_toString (attempt + 2))

/-- What labels give for a base is a type name. -/
theorem isTypeName_base (label : Option String) :
    Identifier.isTypeName ((label.bind Identifier.ofLabel?).getD "Definition") = true := by
  cases hlabel : label.bind Identifier.ofLabel? with
  | none => rfl
  | some name =>
    obtain ⟨text, -, hname⟩ := Option.bind_eq_some_iff.mp hlabel
    exact Identifier.isTypeName_of_ofLabel? hname

/-- Whatever the label is, a new identifier is a type name, as long as numbers cannot wrap. -/
theorem isTypeName_freeIdentifier (registry : Registry κ) (label : Option String)
    (hbound : registry.wraps = true → registry.definitions.size < numbersInRange) :
    Identifier.isTypeName (registry.freeIdentifier label) = true := by
  have htype := isTypeName_base label
  unfold freeIdentifier
  generalize (label.bind Identifier.ofLabel?).getD "Definition" = base at htype ⊢
  cases hbase : registry.isAvailable base with
  | true => rwa [freeName_of_isAvailable hbase]
  | false =>
    obtain ⟨attempt, htaken, hfree⟩ := registry.exists_attempt base
    rw [freeName_eq hbase htaken hfree]
    refine isTypeName_numbered htype ?_
    -- there are no fewer definitions than attempts that failed
    have hle := le_size_of_taken htaken
    cases hwraps : registry.wraps with
    | false => exact numberAt_false attempt
    | true =>
      have := hbound hwraps
      exact numberAt_of_lt true (by omega)

/-- A label that is a type name, and free, is the identifier itself. -/
theorem freeIdentifier_eq_self {registry : Registry κ} {name : String}
    (hname : Identifier.isTypeName name = true) (hreserved : name ∉ reservedNames)
    (hfree : name ∉ registry.definitions.keys) : registry.freeIdentifier (some name) = name := by
  have havailable : registry.isAvailable name = true := by
    rw [← Bool.not_eq_false, isAvailable_eq_false_iff, not_or]
    exact ⟨hreserved, hfree⟩
  rw [freeIdentifier, Option.bind_some, Identifier.ofLabel?_of_isTypeName hname, Option.getD_some,
    freeName_of_isAvailable havailable]

variable [DecidableEq κ]

/-! ## Consistent registries -/

/-- What every change preserves, as far as it is not about keys. -/
structure Sound (registry : Registry κ) : Prop where
  valid : registry.Valid
  count : registry.interned = UInt32.ofNat registry.identities.size
  reserved : ∀ identifier ∈ registry.definitions.keys, identifier ∉ reservedNames
  names : (registry.wraps = true → registry.definitions.size ≤ numbersInRange) →
    ∀ identifier ∈ registry.definitions.keys, Identifier.isTypeName identifier = true
  placeholder : ∀ identifier ∈ registry.pending, ∃ label,
    registry.definitions.get? identifier = some ⟨.unknown, label⟩

theorem isPending_iff {registry : Registry κ} {key : κ} :
    registry.isPending key = true ↔
      ∃ identifier, registry.identifier? key = some identifier ∧ identifier ∈ registry.pending := by
  rw [isPending, Option.any_eq_true]
  simp only [List.contains_iff_mem]

/-- A change of a registry. -/
inductive Step : Registry κ → Registry κ → Prop where
  | stay (registry : Registry κ) : Step registry registry
  | register {registry : Registry κ} {key : κ} (label : Option String)
      (new : registry.identifier? key = none) : Step registry (registry.register key label).2
  | complete (registry : Registry κ) (identifier : String) (body : Node) :
      Step registry (registry.complete identifier body)

omit [DecidableEq κ] in
theorem Sound.start (wraps : Bool) : (Registry.start wraps : Registry κ).Sound where
  valid := .start wraps
  count := rfl
  reserved _ h := absurd h List.not_mem_nil
  names _ _ h := absurd h List.not_mem_nil
  placeholder _ h := absurd h List.not_mem_nil

/-- Registering counts the key, and names wrap no sooner than all numbers before could be taken. -/
theorem Sound.register {registry : Registry κ} (h : registry.Sound) {key : κ}
    (label : Option String) (new : registry.identifier? key = none) :
    (registry.register key label).2.Sound where
  valid := h.valid.register label new
  count := by
    -- the counter takes one step, and so does the number of definitions
    have hsize := (h.valid.register label new).size_eq
    rw [size_register, h.valid.size_eq] at hsize
    rw [← hsize, UInt32.ofNat_add, ← h.count]
    rfl
  reserved identifier hi := by
    rw [keys_register, List.mem_append, List.mem_singleton] at hi
    rcases hi with hi | rfl
    · exact h.reserved identifier hi
    · exact registry.freeIdentifier_not_reserved label
  names hbound identifier hi := by
    -- there was room for one more name before
    have hbound' (hwraps : registry.wraps = true) : registry.definitions.size < numbersInRange := by
      have := hbound hwraps
      rwa [size_register] at this
    rw [keys_register, List.mem_append, List.mem_singleton] at hi
    rcases hi with hi | rfl
    · exact h.names (fun hwraps => Nat.le_of_lt (hbound' hwraps)) identifier hi
    · exact registry.isTypeName_freeIdentifier label hbound'
  placeholder identifier hi := by
    rw [get?_register]
    split
    · exact ⟨label, rfl⟩
    · rename_i hne
      exact h.placeholder identifier ((List.mem_cons.mp hi).resolve_left hne)

omit [DecidableEq κ] in
/-- Completing changes no name, and what is still pending is not what was completed. -/
theorem Sound.complete {registry : Registry κ} (h : registry.Sound) (identifier : String)
    (body : Node) : (registry.complete identifier body).Sound where
  valid := h.valid.complete identifier body
  count := h.count
  reserved other ho := by
    rw [keys_complete] at ho
    exact h.reserved other ho
  names hbound other ho := by
    rw [keys_complete] at ho
    rw [← OrderedMap.length_keys, keys_complete, OrderedMap.length_keys] at hbound
    exact h.names hbound other ho
  placeholder other ho := by
    obtain ⟨ho, hne⟩ := (mem_pending_complete ..).mp ho
    rw [get?_complete, if_neg hne]
    exact h.placeholder other ho

/-- Every step leaves the parts of a registry in step. -/
theorem Sound.step {before after : Registry κ} (h : before.Sound) (hstep : Step before after) :
    after.Sound := by
  cases hstep with
  | stay => exact h
  | register label new => exact h.register label new
  | complete identifier body => exact h.complete identifier body

/-- Identifiers and labels stay as they are, and new definitions come after the old ones. -/
structure Keeps (before after : Registry κ) : Prop where
  identifiers : ∀ key identifier, before.identifier? key = some identifier →
    after.identifier? key = some identifier
  labels : ∀ identifier definition, before.definitions.get? identifier = some definition →
    ∃ definition', after.definitions.get? identifier = some definition' ∧
      definition'.label = definition.label
  order : before.definitions.keys <+: after.definitions.keys
  wraps : after.wraps = before.wraps

theorem Keeps.refl (registry : Registry κ) : Keeps registry registry :=
  ⟨fun _ _ h => h, fun _ definition h => ⟨definition, h, rfl⟩, List.prefix_refl _, rfl⟩

theorem Keeps.trans {r₁ r₂ r₃ : Registry κ} (h : Keeps r₁ r₂) (h' : Keeps r₂ r₃) : Keeps r₁ r₃ where
  identifiers key identifier hi := h'.identifiers key identifier (h.identifiers key identifier hi)
  labels identifier definition hd := by
    obtain ⟨middle, hmiddle, hlabel⟩ := h.labels identifier definition hd
    obtain ⟨last, hlast, hlabel'⟩ := h'.labels identifier middle hmiddle
    exact ⟨last, hlast, hlabel'.trans hlabel⟩
  order := h.order.trans h'.order
  wraps := h'.wraps.trans h.wraps

theorem Keeps.step {before after : Registry κ} (hstep : Step before after) :
    Keeps before after := by
  -- a registration adds one identifier at the end, and a completion changes one body
  cases hstep with
  | stay => exact .refl before
  | @register key label new =>
    have hextends := Extends.register before label new
    refine ⟨fun _ _ => hextends.identifiers, fun _ definition hd => ?_, ?_, rfl⟩
    · exact ⟨definition, hextends.definitions hd, rfl⟩
    · rw [keys_register]
      exact List.prefix_append _ _
  | complete identifier body =>
    refine ⟨fun _ _ h => h, fun other definition hd => ?_, ?_, rfl⟩
    · rw [get?_complete]
      split
      · rename_i heq
        subst heq
        exact ⟨{ definition with node := body }, by rw [hd]; rfl, rfl⟩
      · exact ⟨definition, hd, rfl⟩
    · have hkeys := before.keys_complete identifier body
      exact hkeys ▸ List.prefix_refl _

/-- A key that is registered by a step is pending after it. -/
theorem Step.isPending_of_new {before after : Registry κ} (h : Step before after) {key : κ}
    {identifier : String} (hnew : before.identifier? key = none)
    (hi : after.identifier? key = some identifier) : after.isPending key = true := by
  cases h with
  | stay => rw [hnew] at hi; cases hi
  | register label new =>
    rw [identifier?_register] at hi
    split at hi
    · rename_i heq
      refine isPending_iff.mpr ⟨_, ?_, List.mem_cons_self⟩
      rw [identifier?_register, if_pos heq]
    · rw [hnew] at hi
      cases hi
  | complete => rw [identifier?_complete, hnew] at hi; cases hi

/-- The later registry is the earlier one with the identifier of the key completed. -/
def Completes (key : κ) (before after : Registry κ) : Prop :=
  ∃ identifier body, before.identifier? key = some identifier ∧
    after = before.complete identifier body

theorem Completes.not_isPending {key : κ} {before after : Registry κ}
    (h : Completes key before after) : ¬ after.isPending key = true := by
  obtain ⟨identifier, body, hi, rfl⟩ := h
  rw [isPending_iff]
  rintro ⟨other, ho, hpending⟩
  rw [identifier?_complete, hi, Option.some.injEq] at ho
  exact ((mem_pending_complete ..).mp hpending).2 ho.symm

/-- A registered key stays pending unless its identifier is completed. -/
theorem Step.isPending_iff {before after : Registry κ} (h : Step before after)
    (hbefore : before.Sound) {key : κ} {identifier : String}
    (hi : before.identifier? key = some identifier) :
    after.isPending key = true ↔ before.isPending key = true ∧ ¬ Completes key before after := by
  by_cases hcompletes : Completes key before after
  · exact ⟨fun hpending => absurd hpending hcompletes.not_isPending, fun h => absurd hcompletes h.2⟩
  · have hafter := (Keeps.step h).identifiers key identifier hi
    rw [and_iff_left hcompletes]
    simp only [Registry.isPending_iff, hi, hafter, Option.some.injEq, exists_eq_left']
    cases h with
    | stay => exact Iff.rfl
    | register label new =>
      exact (Extends.register before label new).pending (hbefore.valid.mem_keys hi)
    | complete other body =>
      rw [mem_pending_complete, and_iff_left]
      rintro rfl
      exact hcompletes ⟨_, body, hi, rfl⟩

/-! ## Histories -/

/-- Registries that have become of each other from an empty one on, latest first. -/
inductive History : List (Registry κ) → Prop where
  | start (wraps : Bool) : History [.start wraps]
  | step {before after : Registry κ} {past : List (Registry κ)} (history : History (before :: past))
      (step : Step before after) : History (after :: before :: past)

/-- At some step of the list, latest first, the identifier of the key was completed. -/
def Completed (key : κ) (moments : List (Registry κ)) : Prop :=
  ∃ before after, [after, before] <:+: moments ∧ Completes key before after

theorem completed_cons_iff {key : κ} {before after : Registry κ} {past : List (Registry κ)} :
    Completed key (after :: before :: past) ↔
      Completes key before after ∨ Completed key (before :: past) := by
  unfold Completed
  constructor
  · rintro ⟨x, y, hinfix, h⟩
    rcases List.infix_cons_iff.mp hinfix with hleading | hinfix
    · rw [List.cons_prefix_cons, List.cons_prefix_cons] at hleading
      exact .inl (hleading.1 ▸ hleading.2.1 ▸ h)
    · exact .inr ⟨x, y, hinfix, h⟩
  · rintro (h | ⟨x, y, hinfix, h⟩)
    · exact ⟨before, after, (List.prefix_append [after, before] past).isInfix, h⟩
    · exact ⟨x, y, List.infix_cons hinfix, h⟩

namespace History

variable {registry : Registry κ} {past : List (Registry κ)}

theorem sound (h : History (registry :: past)) : registry.Sound := by
  generalize hmoments : registry :: past = moments at h
  induction h generalizing registry past with
  | start wraps =>
    cases hmoments
    exact .start wraps
  | step _ hstep ih =>
    cases hmoments
    exact (ih rfl).step hstep

theorem keeps {moments : List (Registry κ)} (h : History moments) :
    moments.Pairwise fun after before => Keeps before after := by
  induction h with
  | start => exact List.pairwise_singleton _ _
  | @step before after past _ hstep ih =>
    refine List.pairwise_cons.mpr ⟨?_, ih⟩
    intro registry hmem
    rcases List.mem_cons.mp hmem with rfl | hmem
    · exact .step hstep
    · exact ((List.pairwise_cons.mp ih).1 registry hmem).trans (.step hstep)

end History

/-- What was completed is registered. -/
theorem Completed.registered {key : κ} {registry : Registry κ} {past : List (Registry κ)}
    (h : History (registry :: past)) (hcompleted : Completed key (registry :: past)) :
    ∃ identifier, registry.identifier? key = some identifier := by
  obtain ⟨before, after, hinfix, identifier, body, hi, -⟩ := hcompleted
  have hbefore : before ∈ registry :: past := hinfix.subset (by simp)
  rcases List.mem_cons.mp hbefore with rfl | hbefore
  · exact ⟨identifier, hi⟩
  · exact ⟨identifier,
      ((List.pairwise_cons.mp h.keeps).1 before hbefore).identifiers key identifier hi⟩

theorem contains_eq_true_iff {registry : Registry κ} {key : κ} :
    registry.contains key = true ↔ ∃ identifier, registry.identifier? key = some identifier := by
  rw [contains, OrderedMap.contains, Option.isSome_iff_exists]
  rfl

/-- At every moment the pending keys are those that are registered and were not completed since. -/
theorem History.isPending_iff {registry : Registry κ} {past : List (Registry κ)}
    (h : History (registry :: past)) (key : κ) :
    registry.isPending key = true ↔
      registry.contains key = true ∧ ¬ Completed key (registry :: past) := by
  rw [contains_eq_true_iff]
  generalize hmoments : registry :: past = moments at h
  -- induction on the steps, the last of which may have registered or completed the key
  induction h generalizing registry past with
  | start =>
    cases hmoments
    simp [Registry.isPending_iff, identifier?, Registry.start, OrderedMap.get?, OrderedMap.empty,
      Entries.get?]
  | @step before after past history hstep ih =>
    cases hmoments
    rw [completed_cons_iff]
    cases hi : before.identifier? key with
    | none =>
      -- a new key is pending, and nothing was completed before it was there
      have hcompleted : ¬ (Completes key before after ∨ Completed key (before :: past)) := by
        rintro (⟨identifier, body, hi', -⟩ | hcompleted)
        · rw [hi] at hi'
          cases hi'
        · obtain ⟨identifier, hi'⟩ := hcompleted.registered history
          rw [hi] at hi'
          cases hi'
      rw [and_iff_left hcompleted]
      constructor
      · intro hpending
        obtain ⟨identifier, hafter, -⟩ := Registry.isPending_iff.mp hpending
        exact ⟨identifier, hafter⟩
      · rintro ⟨identifier, hafter⟩
        exact hstep.isPending_of_new hi hafter
    | some identifier =>
      have hafter := (Keeps.step hstep).identifiers key identifier hi
      have hbefore := ih rfl
      rw [and_iff_right ⟨identifier, hi⟩] at hbefore
      have hregistered : ∃ identifier, after.identifier? key = some identifier :=
        ⟨identifier, hafter⟩
      rw [hstep.isPending_iff history.sound hi, hbefore, not_or, and_comm]
      exact (and_iff_right hregistered).symm

end TypeGraph.Registry
