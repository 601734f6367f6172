import Mathlib.Data.List.ProdSigma
import TypeGraph.Proofs.Extraction.Outcome
import TypeGraph.Proofs.TypeStore.Rendering

/-!
# When extraction ends

Extraction follows types without a bound of its own; `Checker.walkDepth` only makes a function of
it. This module shows that the bound decides nothing, and says which types have no extraction: those
from which the descent loops, and those that meet a type which must be rendered and cannot be.

Descents loop in spite of the registry. A built-in generic, an alias of `Record` and a type without
a name are read before any name is registered, so a cycle through such types alone is never cut; the
alias `Foo` of `Foo[]` is one.

Main results:

* `extract_eq_error_iff`, `exists_extract_eq_ok_iff`: how extraction ends, without a policy, a
  registry or a depth.
* `TypeStore.extract_endless_iff`: the types of a store that have no extraction.
-/

namespace TypeGraph

open Relation

namespace Checker

variable {checker : Checker} {policy : Policy}

/-! ## Finitely many places -/

/-- Types that the checker does not have are empty. -/
def Bounded (checker : Checker) : Prop := ∀ type, checker.size ≤ type → checker.describe type = {}

theorem Bounded.lt_of_inner (hb : checker.Bounded) {type other : TypeId}
    (h : other ∈ (checker.shapeOf type).inner) : type < checker.size := by
  -- a type that the checker does not have is empty, so nothing is inside
  by_contra hge
  rw [shapeOf, hb type (Nat.not_lt.mp hge)] at h
  exact absurd h List.not_mem_nil

theorem Bounded.lt_of_isNamed (hb : checker.Bounded) {type : TypeId}
    (h : checker.isNamed type = true) : type < checker.size := by
  by_contra hge
  rw [isNamed, hb type (Nat.not_lt.mp hge)] at h
  exact absurd h (by decide)

/-- Each known type is known once, and the checker has it. -/
structure Orderly (checker : Checker) (p : Place) : Prop where
  nodup : p.known.Nodup
  lt : ∀ type ∈ p.known, type < checker.size

theorem Orderly.start (type : TypeId) : checker.Orderly ⟨[], type⟩ :=
  ⟨.nil, fun _ h => absurd h List.not_mem_nil⟩

theorem Orderly.length_le {p : Place} (h : checker.Orderly p) : p.known.length ≤ checker.size := by
  have hle := (List.subperm_of_subset h.nodup fun type ht => List.mem_range.mpr (h.lt type ht))
  simpa using hle.length_le

theorem Enters.isKnown_eq {p q : Place} (h : checker.Enters p q) : checker.isKnown p = false := by
  by_contra hk
  have hmem := h.mem_below
  rw [below, if_pos (by simpa using hk)] at hmem
  exact List.not_mem_nil hmem

theorem Enters.known_eq {p q : Place} (h : checker.Enters p q) :
    q.known = checker.knownBelow p := by
  obtain ⟨type, -, rfl⟩ := (Checker.mem_below h.isKnown_eq).mp h.mem_below
  rfl

theorem Enters.lt_size {p q : Place} (h : checker.Enters p q) (hb : checker.Bounded) :
    p.type < checker.size := by
  obtain ⟨type, htype, -⟩ := (Checker.mem_below h.isKnown_eq).mp h.mem_below
  exact hb.lt_of_inner htype

theorem Orderly.enters {p q : Place} (hp : checker.Orderly p) (hb : checker.Bounded)
    (h : checker.Enters p q) : checker.Orderly q := by
  rcases hn : checker.isNamed p.type with _ | _
  · have hq : q.known = p.known := by rw [h.known_eq, knownBelow, if_neg (by simp [hn])]
    exact ⟨hq ▸ hp.nodup, hq ▸ hp.lt⟩
  · have hq : q.known = p.type :: p.known := by rw [h.known_eq, knownBelow, if_pos hn]
    -- a place inside of which the walk is already is not entered again
    have hnew : p.type ∉ p.known := fun hmem => by
      have hk := isKnown_iff.mpr ⟨hn, hmem⟩
      rw [h.isKnown_eq] at hk
      exact Bool.false_ne_true hk
    refine ⟨hq ▸ List.nodup_cons.mpr ⟨hnew, hp.nodup⟩, ?_⟩
    intro type ht
    rw [hq] at ht
    rcases List.mem_cons.mp ht with rfl | ht
    · exact hb.lt_of_isNamed hn
    · exact hp.lt type ht

theorem known_suffix {p q : Place} (h : TransGen checker.Enters p q) : p.known <:+ q.known := by
  -- a step makes at most one more type known
  have hstep {p q : Place} (h : checker.Enters p q) : p.known <:+ q.known := by
    rw [h.known_eq, knownBelow]
    split
    · exact List.suffix_cons ..
    · exact List.suffix_rfl
  induction h with
  | single h => exact hstep h
  | tail _ h ih => exact ih.trans (hstep h)

/-- A path that costs a walk all of its depth comes back. Where a place is along a path, its type
and the number of known types say, and there are not so many of these as the depth allows for. -/
theorem loops_of_strays (hb : checker.Bounded) {type : TypeId}
    (h : checker.Strays checker.walkDepth ⟨[], type⟩) : checker.Loops ⟨[], type⟩ := by
  obtain ⟨path, hpath, hlength⟩ := h
  refine loops_of_enters ?_
  refine comesBack_of_length hpath (fun p => (p.known.length, p.type))
    (List.range (checker.size + 1) ×ˢ List.range checker.size) ?_ ?_ ?_
  · -- all places along the path are among those that are counted
    intro p q hp hstep
    have horderly : checker.Orderly p := by
      clear hstep
      induction hp with
      | refl => exact .start type
      | tail _ hstep ih => exact ih.enters hb hstep
    rw [List.mem_product, List.mem_range, List.mem_range]
    exact ⟨Nat.lt_succ_of_le horderly.length_le, hstep.lt_size hb⟩
  · -- known types are only added on the way, so their number tells which they are
    intro p q hsteps heq
    obtain ⟨hlen, htype⟩ := Prod.mk.inj heq
    have hknown := (known_suffix hsteps).eq_of_length hlen
    cases p
    cases q
    simp_all
  · have hdepth : (checker.size + 1) * (checker.size + 1) =
        (checker.size + 1) * checker.size + (checker.size + 1) := Nat.mul_succ ..
    rw [walkDepth] at hlength
    rw [List.length_product, List.length_range, List.length_range]
    omega

/-! ## How extraction ends -/

theorem clean_of_walkFrom {depth : Nat} {type : TypeId} {root : Node} {s : WalkState}
    (h : checker.walkFrom policy depth type = (.ok root, s)) : checker.Clean ⟨[], type⟩ :=
  ((visits_of_exec h).tracks .start).1 type List.mem_cons_self

theorem fails_of_walkFrom {depth : Nat} {type : TypeId} {halt : Halt} {s : WalkState}
    (h : checker.walkFrom policy depth type = (.error halt, s)) :
    checker.Fails depth ⟨[], type⟩ halt :=
  fails_of_exec .start h

/-- An extraction halts for the reason that the descent from its type has, or because that loops. -/
theorem extract_eq_error_iff (hb : checker.Bounded) {type : TypeId} {halt : Halt} :
    checker.extract policy type = .error halt ↔
      checker.HaltsFrom ⟨[], type⟩ halt ∨ halt = .endless ∧ checker.Loops ⟨[], type⟩ := by
  rw [extract_eq]
  rcases hw : checker.walkFrom policy checker.walkDepth type with ⟨⟨halt'⟩ | ⟨root⟩, s⟩
  · -- the walk halted for a reason, and a path as long as the depth comes back
    have hreason : checker.HaltsFrom ⟨[], type⟩ halt' ∨
        halt' = .endless ∧ checker.Loops ⟨[], type⟩ :=
      (fails_of_walkFrom hw).imp id (And.imp id (loops_of_strays hb))
    constructor
    · intro h
      cases h
      exact hreason
    · -- there is but one reason
      intro h
      have heq : halt' = halt := by
        rcases hreason with hr | ⟨hr, hl⟩ <;> rcases h with h | ⟨h, hl'⟩
        · exact hr.unique h
        · exact absurd hl' hr.not_loops
        · exact absurd hl h.not_loops
        · exact hr.trans h.symm
      rw [heq]
      rfl
  · have hclean := clean_of_walkFrom hw
    constructor
    · intro h
      cases h
    · rintro (h | ⟨-, h⟩)
      · exact absurd hclean h.not_clean
      · exact absurd hclean h.not_clean

/-- An extraction ends well exactly from clean places. -/
theorem exists_extract_eq_ok_iff (hb : checker.Bounded) {type : TypeId} :
    (∃ extraction, checker.extract policy type = .ok extraction) ↔
      checker.Clean ⟨[], type⟩ := by
  -- a walk that ends well meets clean types only, and one from a clean type cannot fail
  constructor
  · rintro ⟨extraction, h⟩
    rw [extract_eq] at h
    rcases hw : checker.walkFrom policy checker.walkDepth type with ⟨⟨halt⟩ | ⟨root⟩, s⟩
    · rw [hw] at h
      cases h
    · exact clean_of_walkFrom hw
  · intro hclean
    cases he : checker.extract policy type with
    | ok extraction => exact ⟨extraction, rfl⟩
    | error halt =>
      rcases (extract_eq_error_iff hb).mp he with h | ⟨-, h⟩
      · exact absurd hclean h.not_clean
      · exact absurd hclean h.not_clean

/-- An extraction has no end exactly if no depth is enough for its walk. -/
theorem extract_endless_iff_forall_depth (hb : checker.Bounded) {type : TypeId} :
    checker.extract policy type = .error .endless ↔
      ∀ depth, (checker.walkFrom policy depth type).1 = .error .endless := by
  constructor
  · -- a walk of another depth would end for the same reason, or be cut off as well
    intro h depth
    have hreason := (extract_eq_error_iff hb).mp h
    rcases hw : checker.walkFrom policy depth type with ⟨⟨halt⟩ | ⟨root⟩, s⟩
    · rcases fails_of_walkFrom hw with hr | ⟨rfl, -⟩
      · rcases hreason with h | ⟨-, h⟩
        · rw [hr.unique h]
        · exact absurd h hr.not_loops
      · rfl
    · have hclean := clean_of_walkFrom hw
      rcases hreason with h | ⟨-, h⟩
      · exact absurd hclean h.not_clean
      · exact absurd hclean h.not_clean
  · intro h
    rw [extract_eq, h checker.walkDepth]
    rfl

/-! ## Renderings without end -/

/-- A walk that halts without end at a place needs a text that the type does not have. -/
theorem HaltsAt.text_eq_none {p : Place} (h : checker.HaltsAt p .endless) :
    checker.text p.type = none := by
  rcases h with ⟨hlabel, -⟩ | ⟨-, -, hhalt⟩
  · by_contra hsome
    exact hlabel fun _ _ => Option.isSome_iff_ne_none.mpr hsome
  · -- of the levels that halt, only those that ask for a rendering halt without end
    unfold haltAt? at hhalt
    split at hhalt
    · cases hhalt
    · unfold Shape.halt? at hhalt
      split at hhalt
      · split at hhalt
        · rename_i hnone
          exact Option.isNone_iff_eq_none.mp hnone
        · cases hhalt
      · cases hhalt
      · cases htext : checker.text p.type with
        | none => rfl
        | some text =>
          rw [htext] at hhalt
          cases hhalt
      · cases hhalt

end Checker

/-! ## Stores -/

namespace TypeStore

theorem bounded_checker (store : TypeStore) : store.checker.Bounded := by
  intro type hge
  have hentry : store.entries[type]? = none := Array.getElem?_eq_none hge
  simp only [checker, describe, entry, hentry, Option.getD_none]
  rfl

open Checker in
/-- The types of a store without an extraction, under each policy: the descent comes back to a
place, or comes to a type whose rendering is asked for and comes back to a type. No depth is enough
for such a walk, so the extraction has no end; all others end with a result or an error. -/
theorem extract_endless_iff (store : TypeStore) (policy : Policy) (type : TypeId) :
    (store.checker.extract policy type = .error .endless ↔
      ∀ depth, (store.checker.walkFrom policy depth type).1 = .error .endless) ∧
    (store.checker.extract policy type = .error .endless ↔
      store.checker.Loops ⟨[], type⟩ ∨
        ∃ p, ReflTransGen store.checker.Descends ⟨[], type⟩ p ∧
          store.checker.HaltsAt p .endless ∧ ComesBack store.Renders p.type) := by
  refine ⟨extract_endless_iff_forall_depth store.bounded_checker, ?_⟩
  rw [extract_eq_error_iff store.bounded_checker]
  constructor
  · rintro (⟨p, hp, hhalts⟩ | ⟨-, hloops⟩)
    · exact .inr ⟨p, hp, hhalts, text_eq_none_iff.mp hhalts.text_eq_none⟩
    · exact .inl hloops
  · rintro (hloops | ⟨p, hp, hhalts, -⟩)
    · exact .inr ⟨rfl, hloops⟩
    · exact .inl ⟨p, hp, hhalts⟩

/-- The alias `Foo` of `Foo[]`. -/
def arrayOfItself : TypeStore :=
  let (foo, store) := declareAlias {} "Foo" []
  let (body, store) := store.reference "Array" [foo]
  store.define foo body

/-- The alias `Foo` of `Foo[]` has no extraction: it is an array before it is an alias. -/
theorem arrayOfItself_endless :
    arrayOfItself.checker.extract .named 0 = .error .endless ∧
    arrayOfItself.checker.extract .aliasesOnly 0 = .error .endless ∧
    arrayOfItself.checker.extract .recursiveOnly 0 = .error .endless :=
  ⟨rfl, rfl, rfl⟩

end TypeStore

end TypeGraph
