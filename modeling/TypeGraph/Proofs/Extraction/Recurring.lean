import TypeGraph.Proofs.Extraction.Closed
import TypeGraph.TypeStore.Text

/-!
# What is registered because it recurs

Under the policy `aliasesOnly` a declared type stands in its place unless it is met inside its own
body. That it is met there is known only while the body is read: the name is registered deep inside,
possibly inside other definitions that are not complete either, and the body is put behind the name
at the very end. In between nothing that the body refers to is lost, so a definition without an
alias can reach itself.

Whether a type is met inside its own body is asked of the types that are being inlined. A walk
leaves them as it found them, and not only if it ends well: what stops a walk leaves them as they
were too.

Main results:

* `inlining_walk`: a walk leaves what is being inlined as it was.
* `Visits.recurring`: completed definitions without an alias can reach themselves.
-/

namespace TypeGraph

open Relation (TransGen)

namespace Checker

variable {checker : Checker} {policy : Policy}

/-! ## What is being inlined -/

/-- The types that are being inlined are the same before and after, however the walk ends. -/
def KeepsInlining {α : Type} (walk : Walk α) : Prop :=
  ∀ s, (exec walk s).2.inlining = s.inlining

theorem KeepsInlining.bind {α β : Type} {walk : Walk α} {f : α → Walk β} (h : KeepsInlining walk)
    (hf : ∀ value, KeepsInlining (f value)) : KeepsInlining (walk >>= f) := by
  intro s
  have hfirst := h s
  rw [exec_bind]
  generalize exec walk s = out at hfirst ⊢
  obtain ⟨⟨halt⟩ | ⟨value⟩, s₁⟩ := out
  · exact hfirst
  · exact (hf value s₁).trans hfirst

theorem keepsInlining_mapM {visit : TypeId → Walk Node}
    (hvisit : ∀ type, KeepsInlining (visit type)) (types : List TypeId) :
    KeepsInlining (types.mapM visit) := by
  induction types with
  | nil => exact fun _ => rfl
  | cons type types ih =>
    rw [List.mapM_cons]
    exact (hvisit type).bind fun _ => ih.bind fun _ _ => rfl

theorem keepsInlining_readShape {visit : TypeId → Walk Node}
    (hvisit : ∀ type, KeepsInlining (visit type)) (type : TypeId) (shape : Shape) :
    KeepsInlining (checker.readShape visit type shape) := by
  unfold readShape
  refine (keepsInlining_mapM hvisit shape.inner).bind fun nodes => ?_
  cases shape.halt? (checker.text type) <;> exact fun _ => rfl

theorem keepsInlining_textOf (type : TypeId) :
    KeepsInlining (checker.textOf type) := by
  unfold textOf
  cases checker.text type <;> exact fun _ => rfl

/-- What is entered is left again, also when the walk inside halts. -/
theorem keepsInlining_whileInlining {α : Type} {walk : Walk α} (h : KeepsInlining walk)
    (key : TypeKey) : KeepsInlining (whileInlining key walk) := by
  intro s
  rw [exec_whileInlining]
  show (exec walk (s.enter key)).2.inlining.erase key = s.inlining
  rw [h (s.enter key)]
  exact List.erase_cons_head ..

section

variable {body : TypeId → Walk Node} {type : TypeId} (hbody : KeepsInlining (body type))
  (key : TypeKey)

include hbody

-- What asks or changes the registry alone keeps the rest by computation.

theorem keepsInlining_walkDefinition : KeepsInlining (checker.walkDefinition body type key) := by
  unfold walkDefinition Registry.intern
  refine (keepsInlining_textOf type).bind fun label => ?_
  refine .bind (fun _ => rfl) fun registry => ?_
  cases registry.lookup key with
  | some reference => exact fun _ => rfl
  | none =>
    refine .bind (fun _ => rfl) fun identifier => hbody.bind fun node => ?_
    exact .bind (fun _ => rfl) fun _ _ => rfl

theorem keepsInlining_walkInline : KeepsInlining (checker.walkInline body type key) := by
  unfold walkInline
  refine .bind (fun _ => rfl) fun registry => ?_
  cases registry.lookup key with
  | some reference => exact fun _ => rfl
  | none =>
    refine (keepsInlining_textOf type).bind fun label => .bind (fun _ => rfl) fun inlining => ?_
    split
    · exact fun _ => rfl
    · refine (keepsInlining_whileInlining hbody key).bind fun node => ?_
      refine .bind (fun _ => rfl) fun registry => ?_
      cases registry.identifier? key with
      | some identifier => exact .bind (fun _ => rfl) fun _ _ => rfl
      | none => exact fun _ => rfl

end

/-- A walk leaves what is being inlined as it was, however it ends. -/
theorem inlining_walk (checker : Checker) (policy : Policy) (depth : Nat) (mode : Mode)
    (type : TypeId) : KeepsInlining (checker.walk policy depth mode type) := by
  induction depth generalizing mode type with
  | zero => exact fun _ => rfl
  | succ depth ih =>
    -- a name is seen to where it counts, and anything else is a level
    by_cases hlevel : mode = .body ∨ checker.isNamed type = false
    · rw [walk_level _ _ _ _ hlevel]
      exact keepsInlining_readShape (fun type => ih .reference type) type _
    · have hmode : mode = .reference := by
        cases mode with
        | reference => rfl
        | body => exact absurd (.inl rfl) hlevel
      have hnamed : checker.isNamed type = true := by
        simpa using fun h => hlevel (.inr h)
      rw [hmode, walk_named _ _ _ _ hnamed]
      split
      · exact keepsInlining_walkInline (ih .body type) _
      · exact keepsInlining_walkDefinition (ih .body type) _

/-! ## Definitions of types without an alias -/

/-- A completed definition can reach itself if its type may stand in place. -/
def Recurring (checker : Checker) (policy : Policy) (registry : Registry TypeKey) : Prop :=
  ∀ key identifier, registry.identifier? key = some identifier → identifier ∉ registry.pending →
    policy.standsInPlace (checker.describe key.1) = true →
      TransGen registry.definitions.Refers identifier identifier

theorem Recurring.empty : Recurring checker policy .empty := by
  intro key identifier h
  cases h

/-- What is registered is not completed yet. -/
theorem Recurring.register {registry : Registry TypeKey} (h : Recurring checker policy registry)
    {key : TypeKey} (label : Option String) (hnew : registry.identifier? key = none) :
    Recurring checker policy (registry.register key label).2 := by
  intro other identifier hi hpending hplace
  rw [Registry.pending_register, List.mem_cons, not_or] at hpending
  rw [Registry.identifier?_register] at hi
  split at hi
  · exact absurd (Option.some.inj hi).symm hpending.1
  · have hext := Registry.Extends.register registry label hnew
    exact TransGen.mono (fun _ _ => refers_of_extends hext) _ _
      (h other identifier hi hpending.2 hplace)

/-- Completing a placeholder keeps what is known of the other definitions. -/
theorem Recurring.complete {registry : Registry TypeKey} (h : Recurring checker policy registry)
    (hvalid : registry.Valid) {key : TypeKey} {own : String} {definition : Definition} {body : Node}
    (hi : registry.identifier? key = some own)
    (hd : registry.definitions.get? own = some definition)
    (hplaceholder : definition.node = .unknown)
    (hown : policy.standsInPlace (checker.describe key.1) = true →
      TransGen (registry.complete own body).definitions.Refers own own) :
    Recurring checker policy (registry.complete own body) := by
  intro other identifier ho hpending hplace
  rw [Registry.identifier?_complete] at ho
  rw [Registry.mem_pending_complete, not_and_not_right] at hpending
  by_cases heq : identifier = own
  · -- an identifier belongs to one key
    subst heq
    obtain rfl := hvalid.key_unique hi ho
    exact hown hplace
  · have hcompleted : identifier ∉ registry.pending := fun hp => heq (hpending hp)
    exact TransGen.mono (fun _ _ => refers_complete hd hplaceholder body) _ _
      (h other identifier ho hcompleted hplace)

variable {s s' : WalkState} {types : List TypeId} {nodes : List Node}

/-- A walk keeps it so that completed definitions of types that may stand in place can reach
themselves. -/
theorem Visits.recurring (h : Visits checker policy s types nodes s')
    (hs : Sound checker policy s.registry)
    (hdistinct : ∀ type, ((checker.describe type).properties.map Property.name).Nodup)
    (hrecurring : Recurring checker policy s.registry) : Recurring checker policy s'.registry := by
  -- induction on the walk: definitions are completed in two places, and one of them is for the
  -- types that may not stand in place
  induction h with
  | nil | met => exact hrecurring
  | cons hfirst _ ihfirst ihrest =>
    obtain ⟨hs₁, -, -⟩ := hfirst.sound hs
    exact ihrest hs₁ (ihfirst hs hrecurring)
  | level _ _ _ ih => exact ih hs hrecurring
  | @definition s s' type label nodes named apart new text inner readable ih =>
    have hnew := hs.valid.lookup_eq_none_iff.mp new
    have hs₀ := hs.register named text hnew
    obtain ⟨hs', hext, -⟩ := inner.sound hs₀
    have hi : s'.registry.identifier? (checker.keyOf type) =
        some (s.registry.freeIdentifier (some label)) :=
      hext.identifiers (by simp [WalkState.register, Registry.identifier?_register])
    have hd : s'.registry.definitions.get? (s.registry.freeIdentifier (some label)) =
        some ⟨.unknown, some label⟩ :=
      hext.definitions (by rw [WalkState.register, Registry.get?_register, if_pos rfl])
    refine (ih hs₀ (hrecurring.register _ hnew)).complete hs'.valid hi hd rfl ?_
    rw [keyOf_fst, apart]
    exact fun hplace => absurd hplace Bool.false_ne_true
  | recurs named inPlace new text inside =>
    exact hrecurring.register _ (hs.valid.lookup_eq_none_iff.mp new)
  | inPlace named inPlace new text outside inner readable unmet ih => exact ih hs hrecurring
  | @late s s' type label own nodes named inPlace new text outside inner readable registered ih =>
    have hnew := hs.valid.lookup_eq_none_iff.mp new
    obtain ⟨hs', hext, hreads⟩ := inner.sound hs
    obtain ⟨definition, hd⟩ := OrderedMap.mem_keys_iff.mp (hs'.valid.mem_keys registered)
    have hplaceholder : definition.node = .unknown :=
      (hs'.standsFor registered hd).placeholder
        (inner.mem_pending hs inPlace List.mem_cons_self hnew registered)
    refine (ih hs hrecurring).complete hs'.valid registered hd hplaceholder fun _ => ?_
    -- the name was registered inside the body, so the body leads to it
    have hfresh := hext.not_mem_keys hs.valid hs'.valid hnew registered
    have hleads := inner.leads hs hdistinct (hs'.valid.mem_keys registered) hfresh
    exact hleads.behind hd hplaceholder (hdistinct _) hreads readable

end Checker

namespace TypeStore

open Checker

/-- Aliases aside, only types that refer back to themselves become definitions where aliases
alone are asked for; and whatever is walked, from whatever state, leaves what is being inlined
as it was. -/
theorem extract_registers (store : TypeStore)
    (hdistinct : ∀ other, ((store.describe other).properties.map Property.name).Nodup) :
    (∀ type extraction, store.checker.extract .aliasesOnly type = .ok extraction →
      ∀ identifier ∈ extraction.definitions.keys, ∃ other,
        (store.checker.registryOf .aliasesOnly type).identifier? (store.checker.keyOf other) =
            some identifier ∧
          ((store.describe other).aliasName.isSome = true ∨
            identifier ∈ extraction.definitions.cyclicIdentifiers)) ∧
      ∀ policy depth mode type s,
        (exec (store.checker.walk policy depth mode type) s).2.inlining = s.inlining := by
  refine ⟨?_, fun policy depth mode type => inlining_walk store.checker policy depth mode type⟩
  intro type extraction h identifier hidentifier
  obtain ⟨root, s, hvisits, hregistry, rfl⟩ := exists_visits_of_extract h
  obtain ⟨hs, -, -⟩ := hvisits.sound .empty
  have hrecurring := hvisits.recurring .empty hdistinct .empty
  -- the definition belongs to a type, and it is complete
  obtain ⟨key, hi⟩ := hs.valid.exists_key hidentifier
  obtain ⟨definition, hd⟩ := OrderedMap.mem_keys_iff.mp hidentifier
  have hkey := (hs.standsFor hi hd).key_eq
  refine ⟨key.1, by rw [← hregistry, ← hkey, hi], ?_⟩
  cases halias : (store.describe key.1).aliasName with
  | some name => exact .inl rfl
  | none =>
    have hcompleted : identifier ∉ s.registry.pending := by
      rw [hvisits.pending_eq_nil]
      exact List.not_mem_nil
    have hplace : Policy.aliasesOnly.standsInPlace (store.checker.describe key.1) = true :=
      Option.isNone_iff_eq_none.mpr halias
    refine .inr (List.mem_filter.mpr ⟨hidentifier, ?_⟩)
    exact DefinitionMap.isCyclic_iff.mpr (hrecurring key identifier hi hcompleted hplace)

/-- The interface `Tree` with a `forest`, where the alias `Forest` is for objects with a `first`
tree. -/
def forest : TypeStore :=
  let (tree, store) := declareInterface {} "Tree"
  let (trees, store) := store.object { properties := [⟨"first", tree, true⟩] }
  let (named, store) := store.addAlias "Forest" [] trees
  let (body, store) := store.object { properties := [⟨"forest", named, false⟩] }
  store.define tree body

/-- A `Tree` is registered while the body of `Forest` is read, and completed after that. -/
def forestExtraction : Extraction where
  root := .reference "Tree" (some "Tree")
  definitions := .ofList [
    ("Forest",
      ⟨.object [("first", (Node.reference "Tree" (some "Tree")).optional)], some "Forest"⟩),
    ("Tree", ⟨.object [("forest", .reference "Forest" (some "Forest"))], some "Tree"⟩)]

theorem distinct_forest (other : TypeId) :
    ((forest.describe other).properties.map Property.name).Nodup := by
  match other with
  | 0 | 1 | 2 | 3 => decide
  | _ + 4 => exact .nil

theorem forest_registers :
    (∀ other, ((forest.describe other).properties.map Property.name).Nodup) ∧
      forest.checker.extract .aliasesOnly 0 = .ok forestExtraction ∧
      ∃ other, (forest.checker.registryOf .aliasesOnly 0).identifier? (forest.checker.keyOf other) =
          some "Tree" ∧
        ((forest.describe other).aliasName.isSome = true ∨
          "Tree" ∈ forestExtraction.definitions.cyclicIdentifiers) := by
  have h : forest.checker.extract .aliasesOnly 0 = .ok forestExtraction := rfl
  obtain ⟨hregisters, -⟩ := extract_registers forest distinct_forest
  exact ⟨distinct_forest, h, hregisters 0 forestExtraction h "Tree" (by decide)⟩

end TypeStore

end TypeGraph
