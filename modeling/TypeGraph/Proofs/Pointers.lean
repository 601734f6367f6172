import Mathlib.Order.WellFounded
import TypeGraph.Error
import TypeGraph.Proofs.Chain

/-!
# Following pointers

Some places hold a pointer, and some pointers lead to a place: a node that is a reference holds an
identifier, which leads to the body of its definition; a lazy schema holds a slot, which leads to
its target. Following pointers from a place ends at one that holds none, breaks at a pointer that
leads nowhere, or goes on without end. It does exactly one of the three.

`Pointers.chase` follows pointers up to a bound. It answers right as soon as the bound exceeds the
number of pointers that lead anywhere, since what ends or breaks passes no pointer twice. Searches
that are this one up to what they make of its answer have the same property
(`Pointers.answers_of_chase`).

Main results:

* `Pointers.ends_or_breaks_or_endless`: what following pointers can come to.
* `Pointers.chase_of_ends`, `Pointers.chase_of_breaks`: the bounded search finds the end and the
  break.
* `Pointers.answers_of_chase`: all that a bounded search answers.
-/

namespace TypeGraph

open Relation

/-- The pointers that places hold, and the places that pointers lead to. -/
structure Pointers (α γ : Type) where
  pointer? : α → Option γ
  target? : γ → Option α

namespace Pointers

variable {α γ : Type}

/-- The pointer that the first place holds leads to the second. -/
def Follows (pointers : Pointers α γ) (place next : α) : Prop :=
  ∃ pointer, pointers.pointer? place = some pointer ∧ pointers.target? pointer = some next

/-- Following pointers ends, at a place that holds none. -/
def Ends (pointers : Pointers α γ) (start last : α) : Prop :=
  ReflTransGen pointers.Follows start last ∧ pointers.pointer? last = none

/-- Following pointers comes to one that leads nowhere. -/
def Breaks (pointers : Pointers α γ) (start : α) (pointer : γ) : Prop :=
  ∃ last, ReflTransGen pointers.Follows start last ∧ pointers.pointer? last = some pointer ∧
    pointers.target? pointer = none

/-- Following pointers goes on without end. -/
def Endless (pointers : Pointers α γ) (start : α) : Prop :=
  ∃ way : Nat → α, way 0 = start ∧ ∀ n, pointers.Follows (way n) (way (n + 1))

/-- Follows at most `bound` pointers; fails at one that leads nowhere or that is one too many. -/
def chase (pointers : Pointers α γ) : Nat → α → Except γ α
  | 0, place =>
    match pointers.pointer? place with
    | none => .ok place
    | some pointer => .error pointer
  | bound + 1, place =>
    match pointers.pointer? place with
    | none => .ok place
    | some pointer =>
      match pointers.target? pointer with
      | none => .error pointer
      | some next => chase pointers bound next

variable {pointers : Pointers α γ} {start place next last : α} {pointer other : γ} {bound : Nat}

/-! ## Ways -/

theorem rightUnique_follows : Relator.RightUnique pointers.Follows := by
  rintro place next next' ⟨pointer, hpointer, hnext⟩ ⟨pointer', hpointer', hnext'⟩
  rw [hpointer, Option.some.injEq] at hpointer'
  subst hpointer'
  rw [hnext, Option.some.injEq] at hnext'
  exact hnext'

theorem not_follows_of_none (h : pointers.pointer? place = none) :
    ¬ pointers.Follows place next := by
  rintro ⟨pointer, hpointer, -⟩
  rw [h] at hpointer
  cases hpointer

theorem not_follows_of_broken (h : pointers.pointer? place = some pointer)
    (hbroken : pointers.target? pointer = none) : ¬ pointers.Follows place next := by
  rintro ⟨pointer', hpointer', hnext⟩
  rw [h, Option.some.injEq] at hpointer'
  rw [← hpointer', hbroken] at hnext
  cases hnext

/-- What following pointers comes to. -/
theorem ends_or_breaks_or_endless (pointers : Pointers α γ) (start : α) :
    (∃ last, pointers.Ends start last) ∨ (∃ pointer, pointers.Breaks start pointer) ∨
      pointers.Endless start := by
  by_cases hacc : Acc (flip pointers.Follows) start
  · -- induction on what there is to follow
    induction hacc with
    | intro start _ ih =>
      cases hpointer : pointers.pointer? start with
      | none => exact .inl ⟨start, .refl, hpointer⟩
      | some pointer =>
        cases htarget : pointers.target? pointer with
        | none => exact .inr (.inl ⟨pointer, start, .refl, hpointer, htarget⟩)
        | some next =>
          have hstep : pointers.Follows start next := ⟨pointer, hpointer, htarget⟩
          rcases ih next hstep with
              ⟨last, hway, hlast⟩ | ⟨broken, last, hway, hlast⟩ | ⟨way, hzero, hway⟩
          · exact .inl ⟨last, .head hstep hway, hlast⟩
          · exact .inr (.inl ⟨broken, last, .head hstep hway, hlast⟩)
          · refine .inr (.inr ⟨fun n => Nat.casesOn n start way, rfl, fun n => ?_⟩)
            cases n with
            | zero =>
              show pointers.Follows start (way 0)
              rwa [hzero]
            | succ n => exact hway n
  · exact .inr (.inr (not_acc_iff_exists_descending_chain.mp hacc))

/-- A way without end goes on wherever it comes to. -/
theorem Endless.exists_follows (h : pointers.Endless start)
    (hway : ReflTransGen pointers.Follows start last) : ∃ next, pointers.Follows last next := by
  induction hway using ReflTransGen.head_induction_on with
  | refl =>
    obtain ⟨way, rfl, hsteps⟩ := h
    exact ⟨_, hsteps 0⟩
  | @head start next hstep _ ih =>
    obtain ⟨way, rfl, hsteps⟩ := h
    exact ih ⟨fun n => way (n + 1), rightUnique_follows (hsteps 0) hstep, fun n => hsteps (n + 1)⟩

theorem Endless.not_ends (h : pointers.Endless start) : ¬ pointers.Ends start last := by
  rintro ⟨hway, hlast⟩
  obtain ⟨next, hnext⟩ := h.exists_follows hway
  exact not_follows_of_none hlast hnext

theorem Endless.not_breaks (h : pointers.Endless start) : ¬ pointers.Breaks start pointer := by
  rintro ⟨last, hway, hlast, hbroken⟩
  obtain ⟨next, hnext⟩ := h.exists_follows hway
  exact not_follows_of_broken hlast hbroken hnext

/-! ## The bounded search -/

theorem chase_of_none (h : pointers.pointer? place = none) :
    pointers.chase bound place = .ok place := by
  cases bound <;> simp only [chase, h]

theorem chase_zero (h : pointers.pointer? place = some pointer) :
    pointers.chase 0 place = .error pointer := by
  simp only [chase, h]

theorem chase_of_broken (h : pointers.pointer? place = some pointer)
    (hbroken : pointers.target? pointer = none) : pointers.chase bound place = .error pointer := by
  cases bound <;> simp only [chase, h, hbroken]

theorem chase_of_target (h : pointers.pointer? place = some pointer)
    (htarget : pointers.target? pointer = some next) :
    pointers.chase (bound + 1) place = pointers.chase bound next := by
  simp only [chase, h, htarget]

/-- Where the search stops, the way ends. -/
theorem ends_of_chase (h : pointers.chase bound start = .ok last) : pointers.Ends start last := by
  -- induction on the bound: a chase either stops where it starts, or goes one step
  induction bound generalizing start with
  | zero =>
    cases hpointer : pointers.pointer? start with
    | none =>
      rw [chase_of_none hpointer] at h
      cases h
      exact ⟨.refl, hpointer⟩
    | some pointer =>
      rw [chase_zero hpointer] at h
      cases h
  | succ bound ih =>
    cases hpointer : pointers.pointer? start with
    | none =>
      rw [chase_of_none hpointer] at h
      cases h
      exact ⟨.refl, hpointer⟩
    | some pointer =>
      cases htarget : pointers.target? pointer with
      | none =>
        rw [chase_of_broken hpointer htarget] at h
        cases h
      | some next =>
        rw [chase_of_target hpointer htarget] at h
        exact ⟨.head ⟨pointer, hpointer, htarget⟩ (ih h).1, (ih h).2⟩

/-! ## The bound

The bound counts pointers, while several places may hold one pointer. So the ways are followed from
pointer to pointer. -/

/-- The place that the first pointer leads to holds the second. -/
def Forwards (pointers : Pointers α γ) (pointer other : γ) : Prop :=
  ∃ place, pointers.target? pointer = some place ∧ pointers.pointer? place = some other

theorem rightUnique_forwards : Relator.RightUnique pointers.Forwards := by
  rintro pointer other other' ⟨place, hplace, hother⟩ ⟨place', hplace', hother'⟩
  rw [hplace, Option.some.injEq] at hplace'
  subst hplace'
  rw [hother, Option.some.injEq] at hother'
  exact hother'

/-- A way goes through pointers: it has not left its start, or one of them leads to where it is. -/
theorem eq_or_exists_forwards (hstart : pointers.pointer? start = some pointer)
    (h : ReflTransGen pointers.Follows start place) :
    place = start ∨ ∃ other, ReflTransGen pointers.Forwards pointer other ∧
      pointers.target? other = some place := by
  induction h with
  | refl => exact .inl rfl
  | @tail place next _ hstep ih =>
    obtain ⟨held, hheld, hnext⟩ := hstep
    rcases ih with rfl | ⟨other, hway, hplace⟩
    · rw [hstart, Option.some.injEq] at hheld
      exact .inr ⟨pointer, .refl, hheld ▸ hnext⟩
    · exact .inr ⟨held, hway.tail ⟨place, hplace, hheld⟩, hnext⟩

/-- A search that has come to a pointer. -/
def enter (pointers : Pointers α γ) (bound : Nat) (pointer : γ) : Except γ α :=
  match pointers.target? pointer with
  | none => .error pointer
  | some place => pointers.chase bound place

theorem enter_of_target (h : pointers.target? pointer = some place) :
    pointers.enter bound pointer = pointers.chase bound place := by
  simp only [enter, h]

theorem enter_of_broken (h : pointers.target? pointer = none) :
    pointers.enter bound pointer = .error pointer := by
  simp only [enter, h]

theorem chase_succ (h : pointers.pointer? place = some pointer) :
    pointers.chase (bound + 1) place = pointers.enter bound pointer := by
  simp only [chase, h]
  rfl

/-- The pointers that lead anywhere are in the list. -/
def Within (pointers : Pointers α γ) (places : List γ) : Prop :=
  ∀ pointer place, pointers.target? pointer = some place → pointer ∈ places

variable {places : List γ} (hplaces : pointers.Within places)

include hplaces

/-- From a pointer the search finds what comes behind the last pointer of the way. -/
theorem enter_of_forwards (h : ReflTransGen pointers.Forwards pointer other)
    (hend : ∀ next, ¬ pointers.Forwards other next) {outcome : Except γ α}
    (hother : ∀ bound, pointers.enter bound other = outcome) (hbound : places.length ≤ bound) :
    pointers.enter bound pointer = outcome := by
  refine search_eq_of_ends rightUnique_forwards hend h ?_ hother places ?_ hbound
  · rintro bound pointer other ⟨place, htarget, hpointer⟩
    rw [enter_of_target htarget, chase_succ hpointer]
  · rintro pointer other ⟨place, htarget, -⟩
    exact hplaces pointer place htarget

/-- The search finds the end of a way that ends. -/
theorem chase_of_ends (h : pointers.Ends start last) (hbound : places.length < bound) :
    pointers.chase bound start = .ok last := by
  obtain ⟨hway, hlast⟩ := h
  cases hstart : pointers.pointer? start with
  | none =>
    -- there is nothing to follow
    rcases ReflTransGen.cases_head hway with rfl | ⟨next, hstep, -⟩
    · exact chase_of_none hlast
    · exact absurd hstep (not_follows_of_none hstart)
  | some pointer =>
    obtain ⟨bound, rfl⟩ := Nat.exists_eq_succ_of_ne_zero (Nat.ne_zero_of_lt hbound)
    rw [Nat.succ_eq_add_one, chase_succ hstart]
    rcases eq_or_exists_forwards hstart hway with rfl | ⟨other, hforwards, htarget⟩
    · rw [hstart] at hlast
      cases hlast
    · refine enter_of_forwards hplaces hforwards ?_ ?_ (Nat.le_of_lt_succ hbound)
      · -- the last pointer leads to a place without one
        rintro next ⟨place, hplace, hnext⟩
        rw [htarget, Option.some.injEq] at hplace
        rw [← hplace, hlast] at hnext
        cases hnext
      · intro bound
        rw [enter_of_target htarget, chase_of_none hlast]

/-- The search finds the pointer at which a way breaks. -/
theorem chase_of_breaks (h : pointers.Breaks start pointer) (hbound : places.length < bound) :
    pointers.chase bound start = .error pointer := by
  obtain ⟨last, hway, hlast, hbroken⟩ := h
  obtain ⟨bound, rfl⟩ := Nat.exists_eq_succ_of_ne_zero (Nat.ne_zero_of_lt hbound)
  -- the way leads through pointers to the one that is broken
  have hforwards : ∃ first, pointers.pointer? start = some first ∧
      ReflTransGen pointers.Forwards first pointer := by
    cases hstart : pointers.pointer? start with
    | none =>
      rcases ReflTransGen.cases_head hway with rfl | ⟨next, hstep, -⟩
      · rw [hstart] at hlast
        cases hlast
      · exact absurd hstep (not_follows_of_none hstart)
    | some first =>
      refine ⟨first, rfl, ?_⟩
      rcases eq_or_exists_forwards hstart hway with rfl | ⟨other, hforwards, htarget⟩
      · rw [hstart, Option.some.injEq] at hlast
        exact hlast ▸ .refl
      · exact hforwards.tail ⟨last, htarget, hlast⟩
  obtain ⟨first, hfirst, hforwards⟩ := hforwards
  rw [Nat.succ_eq_add_one, chase_succ hfirst]
  refine enter_of_forwards hplaces hforwards ?_ (fun _ => enter_of_broken hbroken)
    (Nat.le_of_lt_succ hbound)
  rintro next ⟨place, hplace, -⟩
  rw [hbroken] at hplace
  cases hplace

omit hplaces

/-! ## Answers -/

/-- Unless the way has no end, all bounds that are large enough give one answer. -/
theorem chase_congr (hplaces : pointers.Within places) {bound' : Nat}
    (hbound : places.length < bound) (hbound' : places.length < bound')
    (h : ¬ pointers.Endless start) : pointers.chase bound start = pointers.chase bound' start := by
  rcases pointers.ends_or_breaks_or_endless start with
      ⟨last, hlast⟩ | ⟨pointer, hpointer⟩ | hendless
  · rw [chase_of_ends hplaces hlast hbound, chase_of_ends hplaces hlast hbound']
  · rw [chase_of_breaks hplaces hpointer hbound, chase_of_breaks hplaces hpointer hbound']
  · exact absurd hendless h

/-- The answer says how following pointers goes: `value` is what is made of the place where it ends,
and `fault` the error about a pointer where it does not. -/
structure Answers {β : Type} (pointers : Pointers α γ) (start : α) (value : α → β)
    (fault : γ → Error)
    (answer : Except Error β) : Prop where
  ok_iff : ∀ result, answer = .ok result ↔ ∃ last, pointers.Ends start last ∧ value last = result
  broken : ∀ pointer, pointers.Breaks start pointer → answer = .error (fault pointer)
  endless : pointers.Endless start → ∃ pointer, answer = .error (fault pointer)
  /-- There is no other way, and one without end is neither of the others. -/
  ways : (∃ last, pointers.Ends start last) ∨ (∃ pointer, pointers.Breaks start pointer) ∨
    pointers.Endless start
  apart : pointers.Endless start →
    (∀ last, ¬ pointers.Ends start last) ∧ ∀ pointer, ¬ pointers.Breaks start pointer

theorem answers_of_chase {β : Type} {value : α → β} {fault : γ → Error} {answer : Except Error β}
    (hplaces : pointers.Within places) (hbound : places.length < bound)
    (hanswer : answer = ((pointers.chase bound start).map value).mapError fault) :
    pointers.Answers start value fault answer where
  ok_iff result := by
    rw [hanswer]
    constructor
    · intro h
      cases hchase : pointers.chase bound start with
      | ok last =>
        rw [hchase] at h
        exact ⟨last, ends_of_chase hchase, Except.ok.inj h⟩
      | error pointer =>
        rw [hchase] at h
        cases h
    · rintro ⟨last, hlast, rfl⟩
      rw [chase_of_ends hplaces hlast hbound]
      rfl
  broken pointer hpointer := by
    rw [hanswer, chase_of_breaks hplaces hpointer hbound]
    rfl
  endless hendless := by
    -- a search that stopped would have come to an end of the way
    cases hchase : pointers.chase bound start with
    | ok last => exact absurd (ends_of_chase hchase) hendless.not_ends
    | error pointer =>
      refine ⟨pointer, ?_⟩
      rw [hanswer, hchase]
      rfl
  ways := pointers.ends_or_breaks_or_endless start
  apart hendless := ⟨fun _ => hendless.not_ends, fun _ => hendless.not_breaks⟩

end Pointers

end TypeGraph
