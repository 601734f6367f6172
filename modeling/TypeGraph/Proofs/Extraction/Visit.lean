import TypeGraph.Proofs.Extraction.Run

/-!
# What a walk does

`Visits` is the walk as a relation: all the ways in which types can be read one after the other,
with the nodes they are read into and the state before and after, without depth or layers of
effects. Each rule says what is done with one type; a named type is

* `met` if it is registered already,
* a `definition` if it is registered and then read,
* and where it may stand in its place, read first and then either left there (`inPlace`) or made a
  definition (`late`), because it was met inside its own body (`recurs`).

Main results:

* `visits_of_exec`: a walk that ends well has done what the rules say. Later modules argue by
  induction over the rules.
* `exists_visits_of_extract`: an extraction is what its policy makes of such a walk.
-/

namespace TypeGraph.Checker

/-! ## The rules -/

/-- The node of a level, from the nodes of the types inside. -/
def bodyOf (checker : Checker) (type : TypeId) (nodes : List Node) : Node :=
  (checker.shapeOf type).build (checker.text type) nodes

/-- The reading of a level does not halt once the types inside are read. -/
def Readable (checker : Checker) (type : TypeId) : Prop :=
  (checker.shapeOf type).halt? (checker.text type) = none

/-- The types are read one after the other, into the nodes, which takes the first state to the
second. -/
inductive Visits (checker : Checker) (policy : Policy) :
    WalkState → List TypeId → List Node → WalkState → Prop where
  | nil {s : WalkState} : Visits checker policy s [] [] s
  | cons {s s₁ s₂ : WalkState} {type : TypeId} {types : List TypeId} {node : Node}
      {nodes : List Node} (first : Visits checker policy s [type] [node] s₁)
      (rest : Visits checker policy s₁ types nodes s₂) :
      Visits checker policy s (type :: types) (node :: nodes) s₂
  /-- A type without a name is read where it stands. -/
  | level {s s' : WalkState} {type : TypeId} {nodes : List Node}
      (unnamed : checker.isNamed type = false)
      (inner : Visits checker policy s (checker.shapeOf type).inner nodes s')
      (readable : checker.Readable type) :
      Visits checker policy s [type] [checker.bodyOf type nodes] s'
  /-- A registered type is referred to. -/
  | met {s : WalkState} {type : TypeId} {reference : Node}
      (named : checker.isNamed type = true)
      (lookup : s.registry.lookup (checker.keyOf type) = some reference) :
      Visits checker policy s [type] [reference] s
  /-- A new type is registered before it is read. -/
  | definition {s s' : WalkState} {type : TypeId} {label : String} {nodes : List Node}
      (named : checker.isNamed type = true)
      (apart : policy.standsInPlace (checker.describe type) = false)
      (new : s.registry.lookup (checker.keyOf type) = none)
      (text : checker.text type = some label)
      (inner : Visits checker policy (s.register (checker.keyOf type) label)
        (checker.shapeOf type).inner nodes s')
      (readable : checker.Readable type) :
      Visits checker policy s [type]
        [.reference (s.registry.freeIdentifier (some label)) (some label)]
        (s'.complete (s.registry.freeIdentifier (some label)) (checker.bodyOf type nodes))
  /-- A type that is met inside its own body is registered there. -/
  | recurs {s : WalkState} {type : TypeId} {label : String}
      (named : checker.isNamed type = true)
      (inPlace : policy.standsInPlace (checker.describe type) = true)
      (new : s.registry.lookup (checker.keyOf type) = none)
      (text : checker.text type = some label)
      (inside : checker.keyOf type ∈ s.inlining) :
      Visits checker policy s [type]
        [.reference (s.registry.freeIdentifier (some label)) (some label)]
        (s.register (checker.keyOf type) label)
  /-- A type that was not met inside its own body stands in its place. -/
  | inPlace {s s' : WalkState} {type : TypeId} {label : String} {nodes : List Node}
      (named : checker.isNamed type = true)
      (inPlace : policy.standsInPlace (checker.describe type) = true)
      (new : s.registry.lookup (checker.keyOf type) = none)
      (text : checker.text type = some label)
      (outside : checker.keyOf type ∉ s.inlining)
      (inner : Visits checker policy (s.enter (checker.keyOf type))
        (checker.shapeOf type).inner nodes s')
      (readable : checker.Readable type)
      (unmet : s'.registry.identifier? (checker.keyOf type) = none) :
      Visits checker policy s [type] [checker.bodyOf type nodes] (s'.leave (checker.keyOf type))
  /-- A type that was met inside its own body is completed after that. -/
  | late {s s' : WalkState} {type : TypeId} {label identifier : String} {nodes : List Node}
      (named : checker.isNamed type = true)
      (inPlace : policy.standsInPlace (checker.describe type) = true)
      (new : s.registry.lookup (checker.keyOf type) = none)
      (text : checker.text type = some label)
      (outside : checker.keyOf type ∉ s.inlining)
      (inner : Visits checker policy (s.enter (checker.keyOf type))
        (checker.shapeOf type).inner nodes s')
      (readable : checker.Readable type)
      (registered : s'.registry.identifier? (checker.keyOf type) = some identifier) :
      Visits checker policy s [type] [.reference identifier (some label)]
        ((s'.leave (checker.keyOf type)).complete identifier (checker.bodyOf type nodes))

/-! ## Walks keep to the rules -/

section

variable {checker : Checker} {policy : Policy} {type : TypeId} {s s' : WalkState} {node : Node}

/-- What is left to say of a level once it is read. -/
theorem readShape_ok {visit : TypeId → Walk Node}
    (h : exec (checker.readShape visit type (checker.shapeOf type)) s = (.ok node, s')) :
    ∃ nodes, exec ((checker.shapeOf type).inner.mapM visit) s = (.ok nodes, s') ∧
      checker.Readable type ∧ node = checker.bodyOf type nodes := by
  rw [exec_readShape] at h
  rcases hm : exec ((checker.shapeOf type).inner.mapM visit) s with ⟨⟨halt⟩ | ⟨nodes⟩, s₁⟩
  · rw [hm] at h
    cases h
  · rw [hm] at h
    cases hh : (checker.shapeOf type).halt? (checker.text type) with
    | some halt =>
      simp only [hh] at h
      cases h
    | none =>
      simp only [hh] at h
      cases h
      exact ⟨nodes, rfl, hh, rfl⟩

theorem visits_of_mapM {visit : TypeId → Walk Node}
    (hvisit : ∀ {type s node s'}, exec (visit type) s = (.ok node, s') →
      Visits checker policy s [type] [node] s') {types : List TypeId} {nodes : List Node}
    (h : exec (types.mapM visit) s = (.ok nodes, s')) : Visits checker policy s types nodes s' := by
  -- induction on the types, each of which starts from the state that the last one left
  induction types generalizing s nodes with
  | nil =>
    rw [List.mapM_nil, exec_pure] at h
    cases h
    exact .nil
  | cons type types ih =>
    rw [exec_mapM_cons] at h
    rcases hf : exec (visit type) s with ⟨⟨halt⟩ | ⟨node⟩, s₁⟩
    · rw [hf] at h
      cases h
    · simp only [hf] at h
      rcases hr : exec (types.mapM visit) s₁ with ⟨⟨halt⟩ | ⟨rest⟩, s₂⟩
      · rw [hr] at h
        cases h
      · rw [hr] at h
        cases h
        exact .cons (hvisit hf) (ih hr)

/-- How the body of a type is read. -/
def VisitsBody (checker : Checker) (policy : Policy) (s : WalkState) (type : TypeId) (node : Node)
    (s' : WalkState) : Prop :=
  ∃ nodes, Visits checker policy s (checker.shapeOf type).inner nodes s' ∧
    checker.Readable type ∧ node = checker.bodyOf type nodes

theorem visits_of_walkDefinition {body : TypeId → Walk Node}
    (hbody : ∀ {s node s'}, exec (body type) s = (.ok node, s') →
      VisitsBody checker policy s type node s')
    (named : checker.isNamed type = true)
    (apart : policy.standsInPlace (checker.describe type) = false)
    (h : exec (checker.walkDefinition body type (checker.keyOf type)) s = (.ok node, s')) :
    Visits checker policy s [type] [node] s' := by
  rw [exec_walkDefinition] at h
  -- the label comes first: without one the registry is not asked
  cases ht : checker.text type with
  | none =>
    rw [ht] at h
    cases h
  | some label =>
    simp only [ht] at h
    cases hl : s.registry.lookup (checker.keyOf type) with
    | some reference =>
      simp only [hl] at h
      cases h
      exact .met named hl
    | none =>
      simp only [hl] at h
      rcases hb : exec (body type) (s.register (checker.keyOf type) label)
        with ⟨⟨halt⟩ | ⟨node'⟩, s₁⟩
      · rw [hb] at h
        cases h
      · obtain ⟨nodes, hinner, hreadable, rfl⟩ := hbody hb
        rw [hb] at h
        cases h
        exact .definition named apart hl ht hinner hreadable

theorem visits_of_walkInline {body : TypeId → Walk Node}
    (hbody : ∀ {s node s'}, exec (body type) s = (.ok node, s') →
      VisitsBody checker policy s type node s')
    (named : checker.isNamed type = true)
    (inPlace : policy.standsInPlace (checker.describe type) = true)
    (h : exec (checker.walkInline body type (checker.keyOf type)) s = (.ok node, s')) :
    Visits checker policy s [type] [node] s' := by
  rw [exec_walkInline] at h
  cases hl : s.registry.lookup (checker.keyOf type) with
  | some reference =>
    simp only [hl] at h
    cases h
    exact .met named hl
  | none =>
    simp only [hl] at h
    cases ht : checker.text type with
    | none =>
      rw [ht] at h
      cases h
    | some label =>
      simp only [ht] at h
      by_cases hin : checker.keyOf type ∈ s.inlining
      · rw [if_pos hin] at h
        cases h
        exact .recurs named inPlace hl ht hin
      · rw [if_neg hin] at h
        rcases hb : exec (body type) (s.enter (checker.keyOf type)) with ⟨⟨halt⟩ | ⟨node'⟩, s₁⟩
        · rw [hb] at h
          cases h
        · obtain ⟨nodes, hinner, hreadable, rfl⟩ := hbody hb
          simp only [hb] at h
          -- the type is a definition exactly if it was registered on the way
          cases hid : s₁.registry.identifier? (checker.keyOf type) with
          | none =>
            simp only [hid] at h
            cases h
            exact .inPlace named inPlace hl ht hin hinner hreadable hid
          | some identifier =>
            simp only [hid] at h
            cases h
            exact .late named inPlace hl ht hin hinner hreadable hid

/-- Walks keep to the rules, both where names count and inside bodies. -/
theorem visits_of_walk (depth : Nat) :
    (∀ {type s node s'}, exec (checker.walk policy depth .reference type) s = (.ok node, s') →
      Visits checker policy s [type] [node] s') ∧
    (∀ {type s node s'}, exec (checker.walk policy depth .body type) s = (.ok node, s') →
      VisitsBody checker policy s type node s') := by
  -- both modes at once: names lead to bodies, and bodies to the types inside
  induction depth with
  | zero =>
    constructor <;>
    · intro type s node s' h
      rw [walk, exec_throw] at h
      cases h
  | succ depth ih =>
    -- a level is read in the same way in both modes
    have hlevel {type : TypeId} {s s' : WalkState} {node : Node}
        (h : exec (checker.readShape (checker.walk policy depth .reference) type
          (checker.shapeOf type)) s = (.ok node, s')) :
        VisitsBody checker policy s type node s' := by
      obtain ⟨nodes, hinner, hreadable, rfl⟩ := readShape_ok h
      exact ⟨nodes, visits_of_mapM ih.1 hinner, hreadable, rfl⟩
    constructor
    · intro type s node s' h
      cases hn : checker.isNamed type with
      | false =>
        rw [walk_level _ _ _ _ (.inr hn)] at h
        obtain ⟨nodes, hinner, hreadable, rfl⟩ := hlevel h
        exact .level hn hinner hreadable
      | true =>
        rw [walk_named _ _ _ _ hn] at h
        split at h
        · rename_i hp
          exact visits_of_walkInline ih.2 hn hp h
        · rename_i hp
          exact visits_of_walkDefinition ih.2 hn (by simpa using hp) h
    · intro type s node s' h
      rw [walk_level _ _ _ _ (.inl rfl)] at h
      exact hlevel h

/-- A walk that ends well has done what the rules say. -/
theorem visits_of_exec {depth : Nat}
    (h : exec (checker.walk policy depth .reference type) s = (.ok node, s')) :
    Visits checker policy s [type] [node] s' :=
  (visits_of_walk depth).1 h

/-! ## What is being inlined -/

/-- A walk leaves behind what is being inlined as it was. -/
theorem Visits.inlining_eq {types : List TypeId} {nodes : List Node}
    (h : Visits checker policy s types nodes s') : s'.inlining = s.inlining := by
  induction h with
  | nil | met | recurs => rfl
  | cons _ _ ihfirst ihrest => exact ihrest.trans ihfirst
  | level _ _ _ ih => exact ih
  | definition _ _ _ _ _ _ ih => exact ih
  -- what is entered is what is left
  | inPlace _ _ _ _ _ _ _ _ ih | late _ _ _ _ _ _ _ _ ih =>
    simp only [WalkState.leave, WalkState.complete, ih, WalkState.enter, List.erase_cons_head]

theorem Visits.leave_inlining_eq {key : TypeKey} {types : List TypeId}
    {nodes : List Node} (h : Visits checker policy (s.enter key) types nodes s') :
    (s'.leave key).inlining = s.inlining := by
  simp only [WalkState.leave, h.inlining_eq, WalkState.enter, List.erase_cons_head]

end

/-! ## Extractions -/

/-- The state that an extraction starts from. -/
def start : WalkState := ⟨[], .empty⟩

/-- The walk of an extraction, with a depth of choice. -/
def walkFrom (checker : Checker) (policy : Policy) (depth : Nat) (type : TypeId) :
    Except Halt Node × WalkState :=
  exec (checker.walk policy depth .reference type) start

theorem extract_eq (checker : Checker) (policy : Policy) (type : TypeId) :
    checker.extract policy type =
      (checker.walkFrom policy checker.walkDepth type).1.map fun root =>
        policy.finish root
          (checker.walkFrom policy checker.walkDepth type).2.registry.definitions := rfl

/-- The registry that the walk of an extraction leaves behind. -/
def registryOf (checker : Checker) (policy : Policy) (type : TypeId) : Registry TypeKey :=
  (checker.walkFrom policy checker.walkDepth type).2.registry

/-- What an extraction that ends well has done. -/
theorem exists_visits_of_extract {checker : Checker} {policy : Policy} {type : TypeId}
    {extraction : Extraction} (h : checker.extract policy type = .ok extraction) :
    ∃ root s, Visits checker policy start [type] [root] s ∧
      s.registry = checker.registryOf policy type ∧
      extraction = policy.finish root s.registry.definitions := by
  rw [extract_eq] at h
  rcases hw : checker.walkFrom policy checker.walkDepth type with ⟨⟨halt⟩ | ⟨root⟩, s⟩
  · rw [hw] at h
    cases h
  · rw [hw] at h
    cases h
    exact ⟨root, s, visits_of_exec hw, by rw [registryOf, hw], rfl⟩

end TypeGraph.Checker
