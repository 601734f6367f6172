import Mathlib.Data.Set.Finite.List
import Mathlib.Order.RelIso.Set
import TypeGraph.Definition.Inline
import TypeGraph.Proofs.Chain
import TypeGraph.Proofs.Node.Occurs

/-!
# Reaching definitions

`DefinitionMap.Refers` is the step from a definition to what its body mentions. The search for
cycles is exact with regard to its steps (`mem_reachableFrom_iff`, `isCyclic_iff`), and what it
finds no cycle for can be gone through by induction (`inductionOnAcyclic`).
-/

namespace TypeGraph.DefinitionMap

open Relation

variable {definitions : DefinitionMap}

/-- The body of the first definition mentions the second identifier. -/
def Refers (definitions : DefinitionMap) (identifier other : String) : Prop :=
  other ∈ definitions.referencesOf identifier

theorem refers_iff {identifier other : String} :
    definitions.Refers identifier other ↔
      ∃ node, definitions.node? identifier = some node ∧ other ∈ node.mentions := by
  unfold Refers referencesOf
  cases definitions.node? identifier with
  | none => simp
  | some node => simp [Node.references, List.mem_eraseDups]

theorem node?_isSome_iff {identifier : String} :
    (definitions.node? identifier).isSome = true ↔ identifier ∈ definitions.keys := by
  rw [node?, Option.isSome_map]
  exact OrderedMap.contains_iff

theorem Refers.mem_keys {identifier other : String} (h : definitions.Refers identifier other) :
    identifier ∈ definitions.keys := by
  obtain ⟨node, hnode, -⟩ := refers_iff.mp h
  rw [← node?_isSome_iff, hnode]
  rfl

/-! ## The search -/

/-- A step of the search, from a definition that it has not come to yet. -/
def SearchStep (definitions : DefinitionMap) (unseen : List String) (identifier other : String) :
    Prop :=
  identifier ∈ unseen ∧ definitions.Refers identifier other

/-- A way through the unseen definitions passes by a definition, or is one without it. -/
theorem through_or_around (identifier : String) {unseen : List String} {start goal : String}
    (h : ReflTransGen (definitions.SearchStep unseen) start goal) :
    goal = identifier ∨
      (∃ next, definitions.Refers identifier next ∧
        ReflTransGen (definitions.SearchStep (unseen.erase identifier)) next goal) ∨
      ReflTransGen (definitions.SearchStep (unseen.erase identifier)) start goal := by
  -- induction from the goal backwards: the last time the way passes by the definition counts
  induction h using ReflTransGen.head_induction_on with
  | refl => exact .inr (.inr .refl)
  | @head start next hstep _ ih =>
    rcases ih with h | h | h
    · exact .inl h
    · exact .inr (.inl h)
    · by_cases heq : start = identifier
      · exact .inr (.inl ⟨next, heq ▸ hstep.2, h⟩)
      · exact .inr (.inr (.head ⟨(List.mem_erase_of_ne heq).mpr hstep.1, hstep.2⟩ h))

/-- The search finds what can be reached from the pending identifiers, and nothing else. -/
theorem mem_closure_iff {unseen pending : List String} {goal : String} :
    goal ∈ definitions.closure unseen pending ↔
      ∃ start ∈ pending, ReflTransGen (definitions.SearchStep unseen) start goal := by
  -- induction on the search itself
  induction unseen, pending using closure.induct definitions with
  | case1 unseen => simp [closure]
  | case2 unseen identifier pending hunseen _ ih =>
    rw [closure, dif_pos hunseen, List.mem_cons, ih]
    constructor
    · rintro (rfl | ⟨start, hstart, hsteps⟩)
      · exact ⟨goal, List.mem_cons_self, .refl⟩
      · have hmono : ReflTransGen (definitions.SearchStep unseen) start goal :=
          hsteps.lift id fun _ _ hstep => ⟨List.mem_of_mem_erase hstep.1, hstep.2⟩
        rcases List.mem_append.mp hstart with hstart | hstart
        · exact ⟨identifier, List.mem_cons_self, .head ⟨hunseen, hstart⟩ hmono⟩
        · exact ⟨start, List.mem_cons_of_mem _ hstart, hmono⟩
    · rintro ⟨start, hstart, hsteps⟩
      -- the way goes through the definition in hand, or it is found by the rest of the search
      rcases through_or_around identifier hsteps with rfl | ⟨next, hnext, h⟩ | h
      · exact .inl rfl
      · exact .inr ⟨next, List.mem_append_left _ hnext, h⟩
      · rcases List.mem_cons.mp hstart with rfl | hstart
        · -- the search has just come to the start, so it goes no further from there
          rcases ReflTransGen.cases_head h with rfl | ⟨next, hstep, h⟩
          · exact .inl rfl
          · exact .inr ⟨next, List.mem_append_left _ hstep.2, h⟩
        · exact .inr ⟨start, List.mem_append_right _ hstart, h⟩
  | case3 unseen identifier pending hseen ih =>
    rw [closure, dif_neg hseen, List.mem_cons, ih]
    constructor
    · rintro (rfl | ⟨start, hstart, hsteps⟩)
      · exact ⟨goal, List.mem_cons_self, .refl⟩
      · exact ⟨start, List.mem_cons_of_mem _ hstart, hsteps⟩
    · rintro ⟨start, hstart, hsteps⟩
      rcases List.mem_cons.mp hstart with rfl | hstart
      · rcases ReflTransGen.cases_head hsteps with rfl | ⟨next, hstep, -⟩
        · exact .inl rfl
        · exact absurd hstep.1 hseen
      · exact .inr ⟨start, hstart, hsteps⟩

theorem mem_reachableFrom_iff {identifier other : String} :
    other ∈ definitions.reachableFrom identifier ↔
      TransGen definitions.Refers identifier other := by
  -- from all definitions, the steps of the search are all steps
  have hstep : definitions.SearchStep definitions.keys = definitions.Refers := by
    funext i j
    exact propext (and_iff_right_of_imp Refers.mem_keys)
  rw [reachableFrom, mem_closure_iff, hstep, TransGen.head'_iff]
  rfl

/-- A definition is cyclic if it can be reached from itself. -/
theorem isCyclic_iff {identifier : String} :
    definitions.isCyclic identifier = true ↔
      TransGen definitions.Refers identifier identifier := by
  rw [isCyclic, Bool.and_eq_true, List.contains_iff_mem, mem_reachableFrom_iff,
    OrderedMap.contains_iff]
  refine and_iff_right_of_imp ?_
  intro h
  obtain ⟨next, hstep, -⟩ := TransGen.head'_iff.mp h
  exact hstep.mem_keys

/-! ## Acyclic definitions -/

/-- What inlining puts in the place of references: a definition that cannot reach itself. -/
def Acyclic (definitions : DefinitionMap) (identifier : String) : Prop :=
  identifier ∈ definitions.keys ∧ definitions.isCyclic identifier = false

/-- A property of acyclic definitions holds if it holds of each that refers only to those it holds
of, as far as these are acyclic. -/
@[elab_as_elim]
theorem inductionOnAcyclic {motive : String → Prop}
    (step : ∀ identifier, definitions.Acyclic identifier →
      (∀ other, definitions.Refers identifier other → definitions.Acyclic other → motive other) →
      motive identifier)
    {identifier : String} (h : definitions.Acyclic identifier) : motive identifier := by
  -- acyclic definitions are finitely many, and none can be reached from itself
  let below (j i : { i // definitions.Acyclic i }) : Prop := TransGen definitions.Refers i.1 j.1
  have : Finite { i // definitions.Acyclic i } :=
    ((List.finite_toSet definitions.keys).subset fun _ hi => hi.1).to_subtype
  have : IsTrans _ below := ⟨fun _ _ _ h h' => h'.trans h⟩
  have : Std.Irrefl below := ⟨fun i hi => by
    have := isCyclic_iff.mpr hi
    rw [i.2.2] at this
    exact Bool.false_ne_true this⟩
  have hwf := Finite.wellFounded_of_trans_of_irrefl below
  suffices ∀ i : { i // definitions.Acyclic i }, motive i.1 from this ⟨identifier, h⟩
  intro i
  induction i using hwf.induction with
  | _ i ih => exact step i.1 i.2 fun other hstep hother => ih ⟨other, hother⟩ (.single hstep)

end TypeGraph.DefinitionMap
