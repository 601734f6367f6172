import TypeGraph.Proofs.Definition.Reach

/-!
# The order of first reference

`DefinitionMap.referenceOrder` lists the definitions that a node leads to as a reader meets them who
goes into each definition at the first reference to it, and comes back to the rest of the node
afterwards.

Main result:

* `DefinitionMap.mem_referenceOrder_iff`: these are the definitions that can be reached from the
  node.
-/

namespace TypeGraph.DefinitionMap

open Relation

/-- The identifiers that the body of a definition mentions, in order. -/
def mentionsOf (definitions : DefinitionMap) (identifier : String) : List String :=
  ((definitions.node? identifier).map Node.mentions).getD []

/-- The definitions that have not been seen. -/
def unseen (definitions : DefinitionMap) (seen : List String) : List String :=
  definitions.keys.filter fun identifier => !seen.contains identifier

theorem length_unseen_lt {definitions : DefinitionMap} {seen : List String} {identifier : String}
    (hi : identifier ∈ definitions.keys) (hseen : identifier ∉ seen) :
    (definitions.unseen (seen ++ [identifier])).length < (definitions.unseen seen).length := by
  have hfilter : definitions.unseen (seen ++ [identifier]) =
      (definitions.unseen seen).filter (· != identifier) := by
    unfold unseen
    rw [List.filter_filter]
    refine List.filter_congr fun other _ => ?_
    rw [Bool.eq_iff_iff]
    simp
    tauto
  have hmem : identifier ∈ definitions.unseen seen := by
    simp [unseen, hi, hseen]
  rw [hfilter, List.length_filter_lt_length_iff_exists]
  exact ⟨identifier, hmem, by simp⟩

/-- What has been seen after going through the pending identifiers and, at the first reference to a
definition, through its body. -/
def explored (definitions : DefinitionMap) (seen : List String) : List String → List String
  | [] => seen
  | identifier :: pending =>
    if h : identifier ∈ definitions.keys ∧ identifier ∉ seen then
      have := length_unseen_lt h.1 h.2
      explored definitions (seen ++ [identifier]) (definitions.mentionsOf identifier ++ pending)
    else explored definitions seen pending
  termination_by pending => ((definitions.unseen seen).length, pending.length)

/-- The definitions that a node leads to, in the order of the first reference to them. -/
def referenceOrder (definitions : DefinitionMap) (node : Node) : List String :=
  definitions.explored [] node.mentions

/-! ## What is explored -/

variable {definitions : DefinitionMap} {seen pending : List String}

theorem refers_iff_mentionsOf {identifier other : String} :
    definitions.Refers identifier other ↔ other ∈ definitions.mentionsOf identifier := by
  rw [refers_iff, mentionsOf]
  cases definitions.node? identifier <;> simp

theorem explored_of_new {identifier : String} (hi : identifier ∈ definitions.keys)
    (hseen : identifier ∉ seen) :
    definitions.explored seen (identifier :: pending) =
      definitions.explored (seen ++ [identifier])
        (definitions.mentionsOf identifier ++ pending) := by
  rw [explored, dif_pos ⟨hi, hseen⟩]

theorem explored_of_seen {identifier : String} (hseen : identifier ∈ seen) :
    definitions.explored seen (identifier :: pending) = definitions.explored seen pending := by
  rw [explored, dif_neg fun h => h.2 hseen]

/-- Nothing is forgotten, and all pending definitions are explored. -/
theorem subset_explored {identifier : String} (hi : identifier ∈ definitions.keys)
    (h : identifier ∈ seen ∨ identifier ∈ pending) :
    identifier ∈ definitions.explored seen pending := by
  induction seen, pending using explored.induct definitions with
  | case1 seen =>
    rw [explored]
    exact h.resolve_right List.not_mem_nil
  | case2 seen first pending hfirst _ ih =>
    rw [explored_of_new hfirst.1 hfirst.2]
    refine ih ?_
    rcases h with h | h
    · exact .inl (List.mem_append_left _ h)
    · rcases List.mem_cons.mp h with rfl | h
      · exact .inl (List.mem_append_right _ List.mem_cons_self)
      · exact .inr (List.mem_append_right _ h)
  | case3 seen first pending hfirst ih =>
    rw [explored, dif_neg hfirst]
    refine ih ?_
    rcases h with h | h
    · exact .inl h
    · rcases List.mem_cons.mp h with rfl | h
      · -- a definition is passed over only because it has been seen
        exact .inl (Classical.not_not.mp fun hseen => hfirst ⟨hi, hseen⟩)
      · exact .inr h

/-- What is explored has been seen before or is a definition that can be reached. -/
theorem of_mem_explored {motive : String → Prop} (hseen : ∀ identifier ∈ seen, motive identifier)
    (hpending : ∀ identifier ∈ pending, identifier ∈ definitions.keys → motive identifier)
    (hstep : ∀ identifier other, motive identifier → definitions.Refers identifier other →
      other ∈ definitions.keys → motive other) :
    ∀ identifier ∈ definitions.explored seen pending, motive identifier := by
  induction seen, pending using explored.induct definitions with
  | case1 seen =>
    rw [explored]
    exact hseen
  | case2 seen first pending hfirst _ ih =>
    rw [explored_of_new hfirst.1 hfirst.2]
    have hmotive := hpending first List.mem_cons_self hfirst.1
    -- the references of the definition in hand are one step further
    refine ih ?_ ?_
    · intro identifier hi
      rcases List.mem_append.mp hi with hi | hi
      · exact hseen identifier hi
      · exact List.mem_singleton.mp hi ▸ hmotive
    · intro identifier hi hkey
      rcases List.mem_append.mp hi with hi | hi
      · exact hstep first identifier hmotive (refers_iff_mentionsOf.mpr hi) hkey
      · exact hpending identifier (List.mem_cons_of_mem _ hi) hkey
  | case3 seen first pending hfirst ih =>
    rw [explored, dif_neg hfirst]
    exact ih hseen fun identifier hi => hpending identifier (List.mem_cons_of_mem _ hi)

/-- What a definition that is explored refers to is explored too, if this was so or due before. -/
theorem explored_closed
    (h : ∀ identifier ∈ seen, ∀ other, definitions.Refers identifier other →
      other ∈ definitions.keys → other ∈ seen ∨ other ∈ pending) :
    ∀ identifier ∈ definitions.explored seen pending, ∀ other, definitions.Refers identifier other →
      other ∈ definitions.keys → other ∈ definitions.explored seen pending := by
  induction seen, pending using explored.induct definitions with
  | case1 seen =>
    rw [explored]
    exact fun identifier hi other hrefers hkey =>
      (h identifier hi other hrefers hkey).resolve_right List.not_mem_nil
  | case2 seen first pending hfirst _ ih =>
    rw [explored_of_new hfirst.1 hfirst.2]
    refine ih ?_
    intro identifier hi other hrefers hkey
    rcases List.mem_append.mp hi with hi | hi
    · rcases h identifier hi other hrefers hkey with ho | ho
      · exact .inl (List.mem_append_left _ ho)
      · rcases List.mem_cons.mp ho with rfl | ho
        · exact .inl (List.mem_append_right _ List.mem_cons_self)
        · exact .inr (List.mem_append_right _ ho)
    · -- the definition in hand has its references pending
      rw [List.mem_singleton.mp hi] at hrefers
      exact .inr (List.mem_append_left _ (refers_iff_mentionsOf.mp hrefers))
  | case3 seen first pending hfirst ih =>
    rw [explored, dif_neg hfirst]
    refine ih ?_
    intro identifier hi other hrefers hkey
    rcases h identifier hi other hrefers hkey with ho | ho
    · exact .inl ho
    · rcases List.mem_cons.mp ho with rfl | ho
      · exact .inl (Classical.not_not.mp fun hseen => hfirst ⟨hkey, hseen⟩)
      · exact .inr ho

/-- The order of first reference has the definitions that its own definitions refer to. -/
theorem referenceOrder_closed {node : Node} {identifier other : String}
    (h : identifier ∈ definitions.referenceOrder node)
    (hrefers : definitions.Refers identifier other) (hkey : other ∈ definitions.keys) :
    other ∈ definitions.referenceOrder node :=
  explored_closed (fun _ hseen => absurd hseen List.not_mem_nil) identifier h other hrefers hkey

/-- The order of first reference has the definitions that can be reached from the node. -/
theorem mem_referenceOrder_iff {node : Node} {identifier : String} :
    identifier ∈ definitions.referenceOrder node ↔ identifier ∈ definitions.keys ∧
      ∃ start ∈ node.mentions, ReflTransGen definitions.Refers start identifier := by
  constructor
  · refine of_mem_explored (motive := fun identifier => identifier ∈ definitions.keys ∧
      ∃ start ∈ node.mentions, ReflTransGen definitions.Refers start identifier) ?_ ?_ ?_ identifier
    · exact fun _ h => absurd h List.not_mem_nil
    · exact fun identifier hi hkey => ⟨hkey, identifier, hi, .refl⟩
    · rintro identifier other ⟨-, start, hstart, hsteps⟩ hrefers hkey
      exact ⟨hkey, start, hstart, hsteps.tail hrefers⟩
  · rintro ⟨hkey, start, hstart, hsteps⟩
    -- induction along the way, each step of which starts at a definition
    induction hsteps with
    | refl => exact subset_explored hkey (.inr hstart)
    | tail _ hrefers ih =>
      exact referenceOrder_closed (ih hrefers.mem_keys) hrefers hkey

end TypeGraph.DefinitionMap
