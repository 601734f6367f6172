import TypeGraph.Proofs.Definition.Reach

/-!
# Dependencies first

`DefinitionMap.visitAll` orders definitions with an explicit list of what is still to be done, in
which entering and leaving are mixed. `DefinitionMap.Orders` says the same as a relation that
follows the nesting of the walk: the definitions that a body refers to are ordered, then the
definition itself is written down, then the walk goes on with its neighbours. What is true of the
order is proved along that nesting.

Main results:

* `DefinitionMap.dependencyOrder_perm`: every definition is written down once, and nothing else is.
* `DefinitionMap.before_of_refers`: a definition comes after what it refers to, except for what
  leads back to it.
* `DefinitionMap.dependencyOrder_eq_keys`: an order that is good as it is stays.
-/

namespace TypeGraph.DefinitionMap

open Relation

variable {definitions : DefinitionMap}

/-- Going through the pending identifiers writes down the order and leaves `unseen'` of `unseen`. -/
inductive Orders (definitions : DefinitionMap) :
    (unseen pending order unseen' : List String) → Prop where
  | nil {unseen : List String} : Orders definitions unseen [] [] unseen
  /-- What has been seen, or is no definition, is passed over. -/
  | seen {unseen unseen' rest order : List String} {identifier : String}
      (seen : identifier ∉ unseen)
      (others : Orders definitions unseen rest order unseen') :
      Orders definitions unseen (identifier :: rest) order unseen'
  /-- A new definition is written down behind what its body refers to. -/
  | enter {unseen unseen₁ unseen' rest inner order : List String} {identifier : String}
      (new : identifier ∈ unseen)
      (references : Orders definitions (unseen.erase identifier)
        (definitions.referencesOf identifier) inner unseen₁)
      (others : Orders definitions unseen₁ rest order unseen') :
      Orders definitions unseen (identifier :: rest) (inner ++ identifier :: order) unseen'

/-! ## The walk is nested -/

/-- What has been unseen is written down or still unseen. -/
theorem Orders.perm {unseen pending order unseen' : List String}
    (h : Orders definitions unseen pending order unseen') : unseen.Perm (order ++ unseen') := by
  induction h with
  | nil => exact .refl _
  | seen _ _ ih => exact ih
  | @enter unseen unseen₁ unseen' _ inner order identifier new _ _ ihInner ihOthers =>
    calc unseen
      _ |>.Perm (identifier :: unseen.erase identifier) := List.perm_cons_erase new
      _ |>.Perm (identifier :: (inner ++ (order ++ unseen'))) :=
        (ihInner.trans (ihOthers.append_left inner)).cons identifier
      _ |>.Perm (inner ++ identifier :: order ++ unseen') := by
        rw [List.append_assoc, List.cons_append]
        exact List.perm_middle.symm

variable (definitions) in
/-- The walk does what is pending, whatever else is to be done behind it. -/
theorem exists_orders (unseen pending : List String) (rest : List Visit) :
    ∃ order unseen', Orders definitions unseen pending order unseen' ∧
      definitions.visitAll unseen (pending.map .enter ++ rest) =
        order ++ definitions.visitAll unseen' rest := by
  -- induction on the unseen definitions, which get fewer with every one that is entered
  induction hcount : unseen.length using Nat.strong_induction_on
      generalizing unseen pending rest with
  | _ count ihCount =>
    induction pending with
    | nil => exact ⟨[], unseen, .nil, rfl⟩
    | cons identifier pending ihPending =>
      rw [List.map_cons, List.cons_append, visitAll]
      split
      · rename_i hnew
        have hshorter : (unseen.erase identifier).length < count := by
          rw [List.length_erase_of_mem hnew]
          have := List.length_pos_of_mem hnew
          omega
        -- first what the body refers to, up to the point where the definition is left
        obtain ⟨inner, unseen₁, hinner, hvisits⟩ := ihCount _ hshorter (unseen.erase identifier)
          (definitions.referencesOf identifier)
            (.leave identifier :: (pending.map .enter ++ rest)) rfl
        have hrest : unseen₁.length < count := by
          have := hinner.perm.length_eq
          simp only [List.length_append] at this
          omega
        -- then the rest of what is pending
        obtain ⟨order, unseen', horder, hvisits'⟩ := ihCount _ hrest unseen₁ pending rest rfl
        refine ⟨inner ++ identifier :: order, unseen', .enter hnew hinner horder, ?_⟩
        rw [hvisits, visitAll, hvisits']
        simp
      · rename_i hseen
        obtain ⟨order, unseen', horder, hvisits⟩ := ihPending
        exact ⟨order, unseen', .seen hseen horder, hvisits⟩

variable (definitions) in
/-- The order of all definitions is what going through all of them writes down. -/
theorem orders_dependencyOrder :
    ∃ unseen',
      Orders definitions definitions.keys definitions.keys definitions.dependencyOrder unseen' := by
  obtain ⟨order, unseen', horders, hvisits⟩ := exists_orders definitions definitions.keys
    definitions.keys []
  rw [List.append_nil, visitAll, List.append_nil] at hvisits
  rw [dependencyOrder, hvisits]
  exact ⟨unseen', horders⟩

/-! ## What is written down -/

section

variable {unseen pending order unseen' : List String}

theorem Orders.nodup (h : Orders definitions unseen pending order unseen')
    (hunseen : unseen.Nodup) :
    (order ++ unseen').Nodup := h.perm.nodup_iff.mp hunseen

/-- Nothing that was pending is left unseen. -/
theorem Orders.not_mem_of_mem (h : Orders definitions unseen pending order unseen')
    (hunseen : unseen.Nodup) {identifier : String} (hi : identifier ∈ pending) :
    identifier ∉ unseen' := by
  induction h with
  | nil => exact absurd hi List.not_mem_nil
  | seen seen others ih =>
    rcases List.mem_cons.mp hi with rfl | hi
    · exact fun hleft => seen (others.perm.mem_iff.mpr (List.mem_append_right _ hleft))
    · exact ih hunseen hi
  | @enter _ _ _ _ _ _ entered new references others _ ihOthers =>
    have herased := hunseen.erase entered
    rcases List.mem_cons.mp hi with rfl | hi
    · -- the definition in hand was taken out before anything else happened
      intro hleft
      have h₁ := others.perm.mem_iff.mpr (List.mem_append_right _ hleft)
      have h₂ := references.perm.mem_iff.mpr (List.mem_append_right _ h₁)
      exact hunseen.not_mem_erase h₂
    · exact ihOthers (references.nodup herased).of_append_right hi

/-- Whatever is written down can be reached from what was pending. -/
theorem Orders.reached (h : Orders definitions unseen pending order unseen') {identifier : String}
    (hi : identifier ∈ order) :
    ∃ start ∈ pending, ReflTransGen definitions.Refers start identifier := by
  induction h with
  | nil => exact absurd hi List.not_mem_nil
  | seen _ _ ih =>
    obtain ⟨start, hstart, hway⟩ := ih hi
    exact ⟨start, List.mem_cons_of_mem _ hstart, hway⟩
  | @enter _ _ _ _ _ _ entered _ _ _ ihInner ihOthers =>
    rcases List.mem_append.mp hi with hi | hi
    · -- a reference of the definition in hand is one step away from it
      obtain ⟨start, hstart, hway⟩ := ihInner hi
      exact ⟨entered, List.mem_cons_self, .head hstart hway⟩
    · rcases List.mem_cons.mp hi with rfl | hi
      · exact ⟨identifier, List.mem_cons_self, .refl⟩
      · obtain ⟨start, hstart, hway⟩ := ihOthers hi
        exact ⟨start, List.mem_cons_of_mem _ hstart, hway⟩

/-- A definition is written down behind those it refers to, if these were unseen and do not lead
back. -/
theorem Orders.before (h : Orders definitions unseen pending order unseen') (hunseen : unseen.Nodup)
    {identifier other : String} (hi : identifier ∈ order) (ho : other ∈ unseen)
    (hrefers : definitions.Refers identifier other) (hne : other ≠ identifier)
    (hback : ¬ ReflTransGen definitions.Refers other identifier) :
    [other, identifier].Sublist order := by
  induction h with
  | nil => exact absurd hi List.not_mem_nil
  | seen _ _ ih => exact ih hunseen hi ho
  | @enter unseen unseen₁ unseen' rest inner order entered new references others ihInner ihOthers =>
    have herased := hunseen.erase entered
    have hsplit : other ≠ entered → other ∈ inner ∨ other ∈ unseen₁ := fun h =>
      List.mem_append.mp (references.perm.mem_iff.mp ((List.mem_erase_of_ne h).mpr ho))
    rcases List.mem_append.mp hi with hbelow | hi
    · -- below the definition in hand, which therefore is not the one referred to
      obtain ⟨start, hstart, hway⟩ := references.reached hbelow
      have hentered : other ≠ entered := by
        rintro rfl
        exact hback (.head hstart hway)
      have hinner := ihInner herased hbelow ((List.mem_erase_of_ne hentered).mpr ho)
      exact hinner.trans (List.sublist_append_left _ _)
    · rcases List.mem_cons.mp hi with rfl | hi
      · -- the definition in hand: its references have all been seen by now
        have hinner := (hsplit hne).resolve_right (references.not_mem_of_mem herased hrefers)
        exact (List.singleton_sublist.mpr hinner).append
          (List.singleton_sublist.mpr List.mem_cons_self)
      · by_cases hearlier : other ∈ inner ++ [entered]
        · -- written down before the neighbours of the definition in hand
          have := (List.singleton_sublist.mpr hearlier).append (List.singleton_sublist.mpr hi)
          simpa using this
        · have hentered : other ≠ entered := fun h => hearlier (by simp [h])
          have hleft := (hsplit hentered).resolve_left fun h => hearlier (List.mem_append_left _ h)
          have hothers := ihOthers (references.nodup herased).of_append_right hi hleft
          exact hothers.trans ((List.sublist_cons_self _ _).trans (List.sublist_append_right _ _))

/-- Where nothing that is pending is unseen, nothing happens. -/
theorem Orders.eq_nil (h : Orders definitions unseen pending order unseen')
    (hpending : ∀ identifier ∈ pending, identifier ∉ unseen) : order = [] ∧ unseen' = unseen := by
  induction h with
  | nil => exact ⟨rfl, rfl⟩
  | seen _ _ ih => exact ih fun identifier hi => hpending identifier (List.mem_cons_of_mem _ hi)
  | enter new => exact absurd new (hpending _ List.mem_cons_self)

/-- Definitions that refer to none that come later are written down as they come. -/
theorem Orders.eq_pending (h : Orders definitions unseen pending order unseen')
    (heq : unseen = pending) (hnodup : pending.Nodup)
    (hordered : pending.Pairwise fun earlier later => ¬ definitions.Refers earlier later) :
    order = pending := by
  induction h with
  | nil => rfl
  | seen seen => exact absurd (heq ▸ List.mem_cons_self) seen
  | @enter _ _ _ rest _ _ identifier new references others _ ihOthers =>
    subst heq
    rw [List.erase_cons_head] at references
    -- all references of the first definition lead to what has been seen
    obtain ⟨rfl, rfl⟩ := references.eq_nil fun other ho hlater =>
      List.rel_of_pairwise_cons hordered hlater ho
    rw [ihOthers rfl hnodup.of_cons hordered.of_cons]
    rfl

end

/-! ## The order -/

/-- Every definition is written down once, and nothing else is. -/
theorem dependencyOrder_perm (definitions : DefinitionMap) :
    definitions.dependencyOrder.Perm definitions.keys := by
  obtain ⟨unseen', horders⟩ := orders_dependencyOrder definitions
  have hempty : unseen' = [] := by
    refine List.eq_nil_iff_forall_not_mem.mpr fun identifier hleft => ?_
    have hkey := horders.perm.mem_iff.mpr (List.mem_append_right _ hleft)
    exact horders.not_mem_of_mem definitions.keys_nodup hkey hleft
  have hperm := horders.perm
  rw [hempty, List.append_nil] at hperm
  exact hperm.symm

/-- A definition comes after another that it refers to and that does not lead back to it. -/
theorem before_of_refers {identifier other : String} (hrefers : definitions.Refers identifier other)
    (ho : other ∈ definitions.keys) (hne : other ≠ identifier)
    (hback : ¬ TransGen definitions.Refers other identifier) :
    [other, identifier].Sublist definitions.dependencyOrder := by
  obtain ⟨unseen', horders⟩ := orders_dependencyOrder definitions
  refine horders.before definitions.keys_nodup ?_ ho hrefers hne ?_
  · exact (dependencyOrder_perm definitions).mem_iff.mpr hrefers.mem_keys
  · intro hway
    rcases reflTransGen_iff_eq_or_transGen.mp hway with heq | hway
    · exact hne heq.symm
    · exact hback hway

/-- If no definition refers to one that was registered later, the order is that of registration. -/
theorem dependencyOrder_eq_keys
    (h : definitions.keys.Pairwise fun earlier later => ¬ definitions.Refers earlier later) :
    definitions.dependencyOrder = definitions.keys := by
  obtain ⟨unseen', horders⟩ := orders_dependencyOrder definitions
  exact horders.eq_pending rfl definitions.keys_nodup h

end TypeGraph.DefinitionMap
