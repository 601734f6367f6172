import TypeGraph.Proofs.Chain
import TypeGraph.Proofs.Extraction.Run

/-!
# Where a walk can be

A walk goes down from type to type. What it does at a type depends only on the type and on the
named types whose bodies it is inside of: those are answered for at once. The two together are a
`Place`. This module describes the descent through places without a registry, a policy or fuel:

* `Clean` places are those from which everything that is met can be read;
* `Enters` goes from a place to one directly inside, past siblings that are clean;
* `Descends` goes to the first place inside that is not clean;
* `HaltsAt` is a place at which the descent is over, for a reason of its own.

From a place there is one descent. It stops at a clean place, it comes to a place where the walk
halts, or it goes on for ever; and since named types are entered once, it goes on for ever exactly
if it comes back to a place (`Loops`), with no name in between.

Main results:

* `Clean.mono`, `Clean.leave`: what is clean inside more named types is clean, and leaving a named
  type whose body was clean makes no clean place unclean.
* `HaltsFrom.unique`, `HaltsFrom.not_loops`, `Loops.not_clean`, `HaltsFrom.not_clean`: the ways to
  end exclude each other.
-/

namespace TypeGraph

/-- A type to walk, inside the bodies of the `known` named types. -/
structure Place where
  known : List TypeId
  type : TypeId

namespace Checker

variable (checker : Checker)

/-- Whether the walk is inside the body of the type already. -/
def isKnown (p : Place) : Bool := checker.isNamed p.type && p.known.contains p.type

/-- The named types whose bodies the walk is inside of, below the type of a place. -/
def knownBelow (p : Place) : List TypeId :=
  if checker.isNamed p.type then p.type :: p.known else p.known

/-- The places directly inside a place, in the order in which they are visited. -/
def below (p : Place) : List Place :=
  if checker.isKnown p then []
  else (checker.shapeOf p.type).inner.map fun type => ⟨checker.knownBelow p, type⟩

/-- Whether the name of a type can be written down where the walk enters its body. -/
def HasLabel (p : Place) : Prop :=
  checker.isKnown p = false → checker.isNamed p.type = true → (checker.text p.type).isSome = true

/-- Why the reading of a place halts once everything inside is read. -/
def haltAt? (p : Place) : Option Halt :=
  if checker.isKnown p then none
  else (checker.shapeOf p.type).halt? (checker.text p.type)

/-- Everything that is met from the place on can be read. -/
inductive Clean : Place → Prop where
  | intro {p : Place} (label : checker.HasLabel p) (halt : checker.haltAt? p = none)
      (below : ∀ q ∈ checker.below p, Clean q) : Clean p

/-- A walk of a place comes to a place directly inside: the label can be written down and everything
before it is clean. -/
def Enters (p q : Place) : Prop :=
  checker.HasLabel p ∧
    ∃ before after, checker.below p = before ++ q :: after ∧ ∀ b ∈ before, checker.Clean b

/-- The descent goes from a place into the first place inside that is not clean. -/
def Descends (p q : Place) : Prop := checker.Enters p q ∧ ¬ checker.Clean q

/-- The walk halts at the place itself: its label has no end, or everything inside is clean and the
reading halts. -/
def HaltsAt (p : Place) (halt : Halt) : Prop :=
  (¬ checker.HasLabel p ∧ halt = .endless) ∨
    (checker.HasLabel p ∧ (∀ q ∈ checker.below p, checker.Clean q) ∧
      checker.haltAt? p = some halt)

/-- The descent comes to a place where the walk halts. -/
def HaltsFrom (p : Place) (halt : Halt) : Prop :=
  ∃ q, Relation.ReflTransGen checker.Descends p q ∧ checker.HaltsAt q halt

/-- The descent comes to a place to which it comes back. -/
def Loops (p : Place) : Prop := ComesBack checker.Descends p

/-! ## Clean places -/

section

variable {checker}

theorem isKnown_iff {p : Place} :
    checker.isKnown p = true ↔ checker.isNamed p.type = true ∧ p.type ∈ p.known := by
  simp [isKnown]

theorem isKnown_eq_false {p : Place} (h : p.type ∉ p.known) : checker.isKnown p = false :=
  Bool.eq_false_iff.mpr fun hk => h (isKnown_iff.mp hk).2

theorem clean_of_isKnown {p : Place} (h : checker.isKnown p = true) : checker.Clean p := by
  refine .intro ?_ ?_ ?_
  · intro hn
    rw [h] at hn
    exact absurd hn (by decide)
  · rw [haltAt?, if_pos h]
  · intro q hq
    rw [below, if_pos h] at hq
    exact absurd hq List.not_mem_nil

theorem mem_below {p q : Place} (hk : checker.isKnown p = false) :
    q ∈ checker.below p ↔
      ∃ type ∈ (checker.shapeOf p.type).inner, q = ⟨checker.knownBelow p, type⟩ := by
  simp only [below, hk, Bool.false_eq_true, if_false, List.mem_map, eq_comm]

theorem knownBelow_subset (p : Place) : p.known ⊆ checker.knownBelow p := by
  intro type ht
  unfold knownBelow
  split
  · exact List.mem_cons_of_mem _ ht
  · exact ht

theorem mem_knownBelow {p : Place} {type : TypeId} (h : type ∈ checker.knownBelow p) :
    type = p.type ∧ checker.isNamed p.type = true ∨ type ∈ p.known := by
  unfold knownBelow at h
  split at h
  · rename_i hn
    exact (List.mem_cons.mp h).imp (fun heq => ⟨heq, hn⟩) id
  · exact Or.inr h

/-- A new place is clean if its label, its own reading and everything directly inside are fine. -/
theorem Clean.of_inner {p : Place} (hk : checker.isKnown p = false) (label : checker.HasLabel p)
    (halt : (checker.shapeOf p.type).halt? (checker.text p.type) = none)
    (hinner : ∀ type ∈ (checker.shapeOf p.type).inner, checker.Clean ⟨checker.knownBelow p, type⟩) :
    checker.Clean p := by
  -- a new place halts, and goes on, as its shape says
  refine .intro label ?_ ?_
  · rw [haltAt?, if_neg (by simp [hk]), halt]
  · intro q hq
    obtain ⟨type, ht, rfl⟩ := (mem_below hk).mp hq
    exact hinner type ht

/-- Inside more named types a clean place is clean: more is answered for at once. -/
theorem Clean.mono {p : Place} (h : checker.Clean p) :
    ∀ {known : List TypeId}, p.known ⊆ known → checker.Clean ⟨known, p.type⟩ := by
  -- induction on what is clean, for all longer lists of named types at once
  induction h with
  | @intro p label halt hbelow ih =>
    intro known hsub
    cases hk' : checker.isKnown ⟨known, p.type⟩ with
    | true => exact clean_of_isKnown hk'
    | false =>
      -- new among more types means new among fewer
      have hk : checker.isKnown p = false := by
        rw [Bool.eq_false_iff] at hk' ⊢
        intro hknown
        obtain ⟨hn, hmem⟩ := isKnown_iff.mp hknown
        exact hk' (isKnown_iff.mpr ⟨hn, hsub hmem⟩)
      refine .of_inner hk' (fun _ hn => label hk hn) ?_ ?_
      · rwa [haltAt?, if_neg (by simp [hk])] at halt
      · intro type ht
        refine ih ⟨checker.knownBelow p, type⟩ ((mem_below hk).mpr ⟨type, ht, rfl⟩) ?_
        simp only [knownBelow]
        split
        · exact List.cons_subset_cons _ hsub
        · exact hsub

/-- A place that is clean inside the body of `v` stays clean outside of it, if that body is
clean. -/
theorem Clean.leave {v : TypeId} {outer : List TypeId} (hv : checker.Clean ⟨outer, v⟩) {p : Place}
    (h : checker.Clean p) :
    ∀ {known : List TypeId}, (∀ type ∈ p.known, type = v ∨ type ∈ known) → outer ⊆ known →
      checker.Clean ⟨known, p.type⟩ := by
  induction h with
  | @intro p label halt hbelow ih =>
    intro known hknown houter
    cases hk : checker.isKnown p with
    | true =>
      -- the place was answered for, by `v` or by a type that is still known
      obtain ⟨hn, hmem⟩ := isKnown_iff.mp hk
      rcases hknown p.type hmem with hpv | hmem
      · rw [hpv]
        exact hv.mono houter
      · exact clean_of_isKnown (isKnown_iff.mpr ⟨hn, hmem⟩)
    | false =>
      -- outside of `v` the place is known for another reason, or its shape is read again
      cases hk' : checker.isKnown ⟨known, p.type⟩ with
      | true => exact clean_of_isKnown hk'
      | false =>
        refine .of_inner hk' (fun _ hn => label hk hn) ?_ ?_
        · rwa [haltAt?, if_neg (by simp [hk])] at halt
        · -- below, `p` itself may have become known, on both sides
          intro type ht
          have hq := (mem_below hk).mpr ⟨type, ht, rfl⟩
          refine ih _ hq (fun other ho => ?_)
            (List.Subset.trans houter (knownBelow_subset ⟨known, p.type⟩))
          rcases mem_knownBelow ho with ⟨rfl, hn⟩ | ho
          · right
            simp [knownBelow, hn]
          · exact (hknown other ho).imp id fun h => knownBelow_subset _ h

/-! ## The descent -/

theorem Enters.mem_below {p q : Place} (h : checker.Enters p q) : q ∈ checker.below p := by
  obtain ⟨-, before, after, heq, -⟩ := h
  rw [heq]
  exact List.mem_append_right _ List.mem_cons_self

/-- What is inside a clean place is clean. -/
theorem Clean.of_enters {p q : Place} (hp : checker.Clean p) (h : checker.Enters p q) :
    checker.Clean q := by
  obtain ⟨-, -, hbelow⟩ := hp
  exact hbelow q h.mem_below

theorem Descends.not_clean {p q : Place} (h : checker.Descends p q) : ¬ checker.Clean p :=
  fun hp => h.2 (hp.of_enters h.1)

/-- From a place the descent goes on in one way. -/
theorem Descends.unique {p q q' : Place} (h : checker.Descends p q) (h' : checker.Descends p q') :
    q = q' := by
  obtain ⟨⟨-, before, after, heq, hbefore⟩, hq⟩ := h
  obtain ⟨⟨-, before', after', heq', hbefore'⟩, hq'⟩ := h'
  rw [heq] at heq'
  -- if one of the two stood before the other, it would be clean
  rcases List.append_eq_append_iff.mp heq' with ⟨middle, rfl, hmiddle⟩ | ⟨middle, rfl, hmiddle⟩
  · cases middle with
    | nil => exact (List.cons.inj hmiddle).1
    | cons first rest =>
      obtain ⟨rfl, -⟩ := List.cons.inj hmiddle
      exact absurd (hbefore' q (by simp)) hq
  · cases middle with
    | nil => exact (List.cons.inj hmiddle).1.symm
    | cons first rest =>
      obtain ⟨rfl, -⟩ := List.cons.inj hmiddle
      exact absurd (hbefore q' (by simp)) hq'

/-- From a clean place there is no way back to it. -/
theorem Clean.not_comes_back {p : Place} (h : checker.Clean p) :
    ¬ Relation.TransGen checker.Enters p p := by
  -- a loop would go through a place inside, from which there is no way back either
  induction h with
  | @intro p _ _ _ ih =>
    intro hloop
    obtain ⟨q, hq, hback⟩ := Relation.TransGen.head'_iff.mp hloop
    exact ih q hq.mem_below (.tail' hback hq)

/-- The way to a place that is not clean leads only through such places. -/
theorem descends_of_enters {p q : Place} (h : Relation.TransGen checker.Enters p q)
    (hq : ¬ checker.Clean q) : Relation.TransGen checker.Descends p q := by
  induction h with
  | single hstep => exact .single ⟨hstep, hq⟩
  | tail _ hstep ih => exact .tail (ih fun hclean => hq (hclean.of_enters hstep)) ⟨hstep, hq⟩

/-- A walk that comes back to a place loops. -/
theorem loops_of_enters {p : Place} (h : ComesBack checker.Enters p) : checker.Loops p := by
  obtain ⟨q, h, hloop⟩ := h
  have hq : ¬ checker.Clean q := fun hclean => hclean.not_comes_back hloop
  -- the place of the loop is not clean, so all steps to it and around it are descents
  refine ⟨q, ?_, descends_of_enters hloop hq⟩
  rcases Relation.reflTransGen_iff_eq_or_transGen.mp h with rfl | h
  · exact .refl
  · exact (descends_of_enters h hq).to_reflTransGen

/-- The descent does not go on where the walk halts. -/
theorem HaltsAt.not_descends {p q : Place} {halt : Halt} (h : checker.HaltsAt p halt) :
    ¬ checker.Descends p q := by
  intro hd
  rcases h with ⟨hl, -⟩ | ⟨-, hbelow, -⟩
  · exact hl hd.1.1
  · exact hd.2 (hbelow q hd.1.mem_below)

theorem HaltsAt.not_clean {p : Place} {halt : Halt} (h : checker.HaltsAt p halt) :
    ¬ checker.Clean p := by
  rintro ⟨hlabel, hhalt, -⟩
  rcases h with ⟨hl, -⟩ | ⟨-, -, hsome⟩
  · exact hl hlabel
  · rw [hhalt] at hsome
    exact Option.some_ne_none _ hsome.symm

theorem HaltsAt.unique {p : Place} {halt halt' : Halt} (h : checker.HaltsAt p halt)
    (h' : checker.HaltsAt p halt') : halt = halt' := by
  rcases h with ⟨hl, rfl⟩ | ⟨hl, -, hsome⟩ <;> rcases h' with ⟨hl', rfl⟩ | ⟨hl', -, hsome'⟩
  · rfl
  · exact absurd hl' hl
  · exact absurd hl hl'
  · exact Option.some.inj (hsome.symm.trans hsome')

theorem HaltsFrom.head {p q : Place} {halt : Halt} (hd : checker.Descends p q)
    (h : checker.HaltsFrom q halt) : checker.HaltsFrom p halt := by
  obtain ⟨r, hr, hhalt⟩ := h
  exact ⟨r, .head hd hr, hhalt⟩

theorem HaltsFrom.not_clean {p : Place} {halt : Halt} (h : checker.HaltsFrom p halt) :
    ¬ checker.Clean p := by
  obtain ⟨q, hq, hhalt⟩ := h
  rcases Relation.ReflTransGen.cases_head hq with rfl | ⟨r, hd, -⟩
  · exact hhalt.not_clean
  · exact hd.not_clean

theorem Loops.not_clean {p : Place} (h : checker.Loops p) : ¬ checker.Clean p := by
  obtain ⟨q, hd, -⟩ := ComesBack.exists_step h
  exact hd.not_clean

/-- A descent that halts does not loop. -/
theorem HaltsFrom.not_loops {p : Place} {halt : Halt} (h : checker.HaltsFrom p halt) :
    ¬ checker.Loops p := by
  obtain ⟨q, hq, hhalt⟩ := h
  -- induction on the way to where the walk halts; there is one descent, which the loop shares
  induction hq using Relation.ReflTransGen.head_induction_on with
  | refl =>
    intro hloop
    obtain ⟨r, hd, -⟩ := ComesBack.exists_step hloop
    exact hhalt.not_descends hd
  | head hd _ ih =>
    intro hloop
    obtain ⟨r, hd', hr⟩ := ComesBack.exists_step hloop
    rw [← hd.unique hd'] at hr
    exact ih hr

/-- A descent halts for one reason. -/
theorem HaltsFrom.unique {p : Place} {halt halt' : Halt} (h : checker.HaltsFrom p halt)
    (h' : checker.HaltsFrom p halt') : halt = halt' := by
  obtain ⟨q, hq, hhalt⟩ := h
  -- of two ways to halt neither goes on where the other stops
  induction hq using Relation.ReflTransGen.head_induction_on with
  | refl =>
    obtain ⟨r, hr, hhalt'⟩ := h'
    rcases Relation.ReflTransGen.cases_head hr with rfl | ⟨s, hd, -⟩
    · exact hhalt.unique hhalt'
    · exact absurd hd hhalt.not_descends
  | head hd _ ih =>
    obtain ⟨r, hr, hhalt'⟩ := h'
    rcases Relation.ReflTransGen.cases_head hr with rfl | ⟨s, hd', hs⟩
    · exact absurd hd hhalt'.not_descends
    · rw [← hd.unique hd'] at hs
      exact ih ⟨r, hs, hhalt'⟩

end

end Checker

end TypeGraph
