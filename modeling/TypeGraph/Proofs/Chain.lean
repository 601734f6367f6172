import Mathlib.Data.List.Nodup
import Mathlib.Data.List.Perm.Subperm
import Mathlib.Logic.Relation

/-!
# Steps that come back

A recursion with a bound on its depth runs out only along a chain of steps. If there are fewer
places than steps, the chain comes back to one of them (`comesBack_of_length`), so that the
recursion has no end without the bound either.

Where no place has two next ones, a way that comes back has no end. A search that goes along such
steps therefore finds where they end, given as many steps as there are places (`search_eq_of_ends`).
-/

namespace TypeGraph

open Relation

variable {α : Type} {r : α → α → Prop} {start : α} {path : List α}

/-- The steps from `start` come to a place to which they come back. -/
def ComesBack (r : α → α → Prop) (start : α) : Prop :=
  ∃ x, ReflTransGen r start x ∧ TransGen r x x

/-- Steps that come back go on. -/
theorem ComesBack.exists_step (h : ComesBack r start) :
    ∃ next, r start next ∧ ComesBack r next := by
  obtain ⟨x, hx, hloop⟩ := h
  rcases ReflTransGen.cases_head hx with rfl | ⟨next, hstep, hnext⟩
  · obtain ⟨next, hstep, hnext⟩ := TransGen.head'_iff.mp hloop
    exact ⟨next, hstep, start, hnext, hloop⟩
  · exact ⟨next, hstep, x, hnext, hloop⟩

theorem reflTransGen_of_mem_chain (h : (start :: path).IsChain r) {x : α}
    (hx : x ∈ start :: path) : ReflTransGen r start x := by
  rcases List.mem_cons.mp hx with rfl | hx
  · exact .refl
  · have hsteps := (h.imp fun _ _ hr => TransGen.single hr).pairwise
    exact (List.rel_of_pairwise_cons hsteps hx).to_reflTransGen

/-- A chain with a repetition comes back. -/
theorem comesBack_of_not_nodup (h : (start :: path).IsChain r) (hd : ¬ (start :: path).Nodup) :
    ComesBack r start := by
  -- a repetition is a place that comes twice in the chain, in this order
  rw [List.nodup_iff_sublist, not_forall] at hd
  obtain ⟨x, hx⟩ := hd
  rw [not_not] at hx
  have hsteps := (h.imp fun _ _ hr => TransGen.single hr).pairwise.sublist hx
  refine ⟨x, reflTransGen_of_mem_chain h (hx.mem List.mem_cons_self), ?_⟩
  exact List.rel_of_pairwise_cons hsteps List.mem_cons_self

/-- A chain with more members than there are places for them comes back. -/
theorem comesBack_of_subset (h : (start :: path).IsChain r) {places : List α}
    (hsub : start :: path ⊆ places) (hlength : places.length ≤ path.length) :
    ComesBack r start := by
  refine comesBack_of_not_nodup h ?_
  intro hnodup
  have hle := (List.subperm_of_subset hnodup hsub).length_le
  rw [List.length_cons] at hle
  omega

/-- Every member of a chain but the last has a next one. -/
theorem exists_step_of_mem_dropLast (h : (start :: path).IsChain r) {x : α}
    (hx : x ∈ (start :: path).dropLast) : ∃ y, r x y := by
  -- the first member steps to the second; the others are a chain of their own
  induction path generalizing start with
  | nil => exact absurd hx List.not_mem_nil
  | cons next rest ih =>
    obtain ⟨hstep, hrest⟩ := List.isChain_cons_cons.mp h
    rw [List.dropLast_cons_cons] at hx
    rcases List.mem_cons.mp hx with rfl | hx
    · exact ⟨next, hstep⟩
    · exact ih hrest hx

/-- A chain with more steps than there are places to step from comes back. Where a member is,
`place` says; it is enough that this tells the members of a chain apart. -/
theorem comesBack_of_length {β : Type} (h : (start :: path).IsChain r) (place : α → β)
    (places : List β) (hplaces : ∀ x y, ReflTransGen r start x → r x y → place x ∈ places)
    (happart : ∀ x y, TransGen r x y → place x = place y → x = y)
    (hlength : places.length < path.length) : ComesBack r start := by
  refine comesBack_of_not_nodup h ?_
  intro hnodup
  have hsteps := (h.imp fun _ _ hr => TransGen.single hr).pairwise
  -- without a repetition the members would be at as many places as there are steps
  have hdistinct : ((start :: path).dropLast.map place).Nodup := by
    rw [List.Nodup, List.pairwise_map]
    have hplaced : (start :: path).Pairwise fun x y => place x ≠ place y :=
      (hsteps.and hnodup).imp fun hxy heq => hxy.2 (happart _ _ hxy.1 heq)
    exact hplaced.sublist (List.dropLast_sublist _)
  -- and these are among the places to step from, of which there are fewer
  have hsub : (start :: path).dropLast.map place ⊆ places := by
    intro p hp
    obtain ⟨x, hx, rfl⟩ := List.mem_map.mp hp
    obtain ⟨y, hxy⟩ := exists_step_of_mem_dropLast h hx
    exact hplaces x y (reflTransGen_of_mem_chain h ((List.dropLast_sublist _).mem hx)) hxy
  have hle := (List.subperm_of_subset hdistinct hsub).length_le
  rw [List.length_map, List.length_dropLast, List.length_cons] at hle
  omega

/-- Steps that do not lead down on the whole do not all lead down. -/
theorem exists_rise_of_transGen {r : Nat → Nat → Prop} {first last : Nat}
    (h : TransGen r first last) (hle : first ≤ last) :
    ∃ x y, ReflTransGen r first x ∧ r x y ∧ x ≤ y ∧ ReflTransGen r y last := by
  -- induction on the steps: either the last one does not lead down, or those before it do not
  induction h with
  | @single last hstep => exact ⟨first, last, .refl, hstep, hle, .refl⟩
  | @tail middle last hsteps hstep ih =>
    by_cases hrise : middle ≤ last
    · exact ⟨middle, last, hsteps.to_reflTransGen, hstep, hrise, .refl⟩
    · obtain ⟨x, y, hx, hxy, hrise, hy⟩ := ih (by omega)
      exact ⟨x, y, hx, hxy, hrise, hy.tail hstep⟩

/-! ## Steps that end -/

/-- Where no place has two next ones, steps that end do not come back. -/
theorem not_comesBack_of_ends (hunique : Relator.RightUnique r) {last : α}
    (hend : ∀ next, ¬ r last next) (h : ReflTransGen r start last) : ¬ ComesBack r start := by
  -- induction from the end backwards: going back is possible from the next place as well
  induction h using ReflTransGen.head_induction_on with
  | refl =>
    intro hback
    obtain ⟨next, hstep, -⟩ := hback.exists_step
    exact hend next hstep
  | @head start next hstep _ ih =>
    intro hback
    obtain ⟨next', hstep', hback⟩ := hback.exists_step
    obtain rfl : next = next' := hunique hstep hstep'
    exact ih hback

/-- A search along steps that end answers as it does at the end, if it takes as many steps as there
are places to step from. -/
theorem search_eq_of_ends {β : Type} {search : Nat → α → β} {outcome : β} {last : α}
    (hunique : Relator.RightUnique r) (hend : ∀ next, ¬ r last next) (h : ReflTransGen r start last)
    (hstep : ∀ bound x y, r x y → search (bound + 1) x = search bound y)
    (hlast : ∀ bound, search bound last = outcome) (places : List α)
    (hplaces : ∀ x y, r x y → x ∈ places) {bound : Nat} (hbound : places.length ≤ bound) :
    search bound start = outcome := by
  -- otherwise the way is longer than the bound
  have hlong : ∀ bound, search bound start = outcome ∨
      ∃ path, (start :: path).IsChain r ∧ path.length = bound + 1 := by
    clear hbound
    induction h using ReflTransGen.head_induction_on with
    | refl => exact fun bound => .inl (hlast bound)
    | @head start next hr _ ih =>
      intro bound
      cases bound with
      | zero => exact .inr ⟨[next], .cons_cons hr (.singleton next), rfl⟩
      | succ bound =>
        rw [hstep bound start next hr]
        refine (ih bound).imp_right ?_
        rintro ⟨path, hpath, hlength⟩
        exact ⟨next :: path, hpath.cons_cons hr, by rw [List.length_cons, hlength]⟩
  rcases hlong bound with h' | ⟨path, hpath, hlength⟩
  · exact h'
  · -- and then it comes back
    have hback : ComesBack r start := by
      refine comesBack_of_length hpath id places ?_ ?_ (by omega)
      · exact fun x y _ hr => hplaces x y hr
      · exact fun x y _ heq => heq
    exact absurd hback (not_comesBack_of_ends hunique hend h)

end TypeGraph
