import Mathlib.Data.List.Basic

/-!
# Readers with a number of steps

A reader that goes on with other readers is given a number of steps, and reads nothing when they are
used up. What counts is what it reads with steps enough, of which there is one result at most.
Readers are put together along this, and the steps are never counted.

Main results:

* `Yields.unique`: a reader yields one result at most.
* `Yields.step`, `Yields.step₂`: a reader goes on from what other readers yield.
* `yields_intercalate`: members with separators between them are read one after the other.
-/

namespace TypeGraph

/-- With steps enough, the result is read. -/
def Yields {α : Type} (read : Nat → Option α) (result : α) : Prop :=
  ∃ bound, ∀ steps, bound ≤ steps → read steps = some result

section

variable {α β γ : Type} {first : Nat → Option α} {second : Nat → Option β} {read : Nat → Option γ}
  {a : α} {b : β} {c : γ}

theorem Yields.unique {a' : α} (h : Yields first a) (h' : Yields first a') : a = a' := by
  obtain ⟨bound, h⟩ := h
  obtain ⟨bound', h'⟩ := h'
  have hsame := (h (max bound bound') (Nat.le_max_left ..)).symm.trans (h' _ (Nat.le_max_right ..))
  exact Option.some.inj hsame

theorem Yields.of_succ (h : ∀ steps, read (steps + 1) = some c) : Yields read c := by
  refine ⟨1, fun steps hsteps => ?_⟩
  obtain ⟨steps, rfl⟩ := Nat.exists_eq_succ_of_ne_zero (Nat.ne_of_gt hsteps)
  exact h steps

/-- With one step more a reader goes on from what another one has read. -/
theorem Yields.step (h : Yields first a)
    (hread : ∀ steps, first steps = some a → read (steps + 1) = some c) : Yields read c := by
  obtain ⟨bound, h⟩ := h
  refine ⟨bound + 1, fun steps hsteps => ?_⟩
  obtain ⟨steps, rfl⟩ := Nat.exists_eq_succ_of_ne_zero (Nat.ne_of_gt (Nat.zero_lt_of_lt hsteps))
  exact hread steps (h steps (Nat.le_of_succ_le_succ hsteps))

/-- It may go on from what two others have read. -/
theorem Yields.step₂ (h : Yields first a) (h' : Yields second b)
    (hread : ∀ steps, first steps = some a → second steps = some b → read (steps + 1) = some c) :
    Yields read c := by
  obtain ⟨bound, h⟩ := h
  obtain ⟨bound', h'⟩ := h'
  refine ⟨max bound bound' + 1, fun steps hsteps => ?_⟩
  obtain ⟨steps, rfl⟩ := Nat.exists_eq_succ_of_ne_zero (Nat.ne_of_gt (Nat.zero_lt_of_lt hsteps))
  have hle := Nat.le_of_succ_le_succ hsteps
  exact hread steps (h steps (Nat.le_trans (Nat.le_max_left ..) hle))
    (h' steps (Nat.le_trans (Nat.le_max_right ..) hle))

end

/-! ## Separated lists -/

section

variable {ι α β : Type} {read : List α → Nat → Option (List β × List α)} {separator : α}
  {text : ι → List α} {items : List ι} {rest : List α}

/-- The first of several members stands before a separator and the others. -/
theorem intercalate_map_cons_cons (separators : List α) (text : ι → List α) (first second : ι)
    (more : List ι) :
    separators.intercalate ((first :: second :: more).map text) =
      text first ++ (separators ++ separators.intercalate ((second :: more).map text)) := by
  rw [List.map_cons, List.map_cons, List.intercalate_cons_cons, List.append_assoc]

/-- Members with a separator between them are read one after the other, and what is read behind the
last of them comes last. -/
theorem yields_intercalate {value : ι → List β} {others : List β} {after : List α}
    (hne : items ≠ [])
    (hmore : ∀ item ∈ items, ∀ rest result, Yields (read rest) result →
      Yields (read (text item ++ separator :: rest)) (value item ++ result.1, result.2))
    (hlast : ∀ item ∈ items, Yields (read (text item ++ rest)) (value item ++ others, after)) :
    Yields (read ([separator].intercalate (items.map text) ++ rest))
      (items.flatMap value ++ others, after) := by
  induction items with
  | nil => exact absurd rfl hne
  | cons first more ih =>
    rw [List.forall_mem_cons] at hmore hlast
    -- the last member is the one that no separator follows
    cases more with
    | nil =>
      rw [List.map_singleton, List.intercalate_singleton, List.flatMap_singleton]
      exact hlast.1
    | cons second more =>
      have hothers := hmore.1 _ _ (ih (List.cons_ne_nil _ _) hmore.2 hlast.2)
      rw [intercalate_map_cons_cons, List.append_assoc, List.append_assoc, List.singleton_append,
        List.flatMap_cons, List.append_assoc]
      exact hothers

/-- So are members that stand for one value each. -/
theorem yields_intercalate_single {value : ι → β} {after : List α} (hne : items ≠ [])
    (hmore : ∀ item ∈ items, ∀ rest result, Yields (read rest) result →
      Yields (read (text item ++ separator :: rest)) (value item :: result.1, result.2))
    (hlast : ∀ item ∈ items, Yields (read (text item ++ rest)) ([value item], after)) :
    Yields (read ([separator].intercalate (items.map text) ++ rest)) (items.map value, after) := by
  have hread : Yields (read ([separator].intercalate (items.map text) ++ rest))
      (items.flatMap (fun item => [value item]) ++ [], after) :=
    yields_intercalate hne hmore hlast
  rwa [List.append_nil, ← List.map_eq_flatMap] at hread

end

end TypeGraph
