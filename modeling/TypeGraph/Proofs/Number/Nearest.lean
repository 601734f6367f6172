import Mathlib.Algebra.Order.Field.Basic
import Mathlib.Algebra.Order.Ring.Rat
import Mathlib.Data.Nat.Log
import Mathlib.Tactic.Linarith
import Mathlib.Tactic.Ring
import TypeGraph.Number.Binary64

/-!
# Rounding to the nearest number

Every magnitude lies in a run of equally spaced ones (`Binary64.exists_run`), where a place is its
start and a whole number of steps. `Binary64.Near` is the interval around a magnitude that is
bounded by the midpoints to its neighbours, ends included if its place is even.

Main results:

* `Binary64.nearest_eq`: what is near to a magnitude is rounded to it.
* `Binary64.unitsAt_lt_gap`: neighbours differ by more than a `10¹⁶`th.
-/

namespace TypeGraph.Binary64

/-! ## Runs -/

/-- Within a run the magnitudes are multiples of one power of two; the last one starts the next
run. -/
theorem unitsAt_run {halvings place : Nat} (hrun : halvings = 0 ∨ runLength ≤ place)
    (hplace : place ≤ 2 * runLength) :
    unitsAt (halvings * runLength + place) = place * 2 ^ halvings := by
  have hR : 0 < runLength := by decide
  unfold unitsAt
  by_cases hsmall : halvings * runLength + place < runLength
  · -- without a leading bit, the place is the number of units
    have hzero : halvings = 0 := by
      rcases hrun with h | h
      · exact h
      · omega
    subst hzero
    rw [if_pos hsmall]
    omega
  · rw [if_neg hsmall, Nat.shiftLeft_eq]
    have hle : runLength ≤ place := by
      rcases hrun with rfl | h
      · omega
      · exact h
    rcases Nat.lt_or_eq_of_le hplace with hlt | rfl
    · -- the first run of normal magnitudes and those after it
      have hsplit :
          halvings * runLength + place = (place - runLength) + runLength * (halvings + 1) := by
        rw [Nat.mul_succ, Nat.mul_comm]
        omega
      have hrest : place - runLength < runLength := by omega
      rw [hsplit, Nat.add_mul_mod_self_left, Nat.add_mul_div_left _ _ hR, Nat.mod_eq_of_lt hrest,
        Nat.div_eq_of_lt hrest, Nat.zero_add, Nat.add_sub_cancel, Nat.add_sub_cancel' hle]
    · -- the start of the next run
      have hsplit : halvings * runLength + 2 * runLength = runLength * (halvings + 2) := by
        rw [Nat.mul_comm runLength, Nat.add_mul]
      rw [hsplit, Nat.mul_mod_right, Nat.mul_div_cancel_left _ hR]
      have hpow : 2 ^ (halvings + 2 - 1) = 2 * 2 ^ halvings := by
        rw [show halvings + 2 - 1 = halvings + 1 from rfl, Nat.pow_succ, Nat.mul_comm]
      rw [hpow, Nat.add_zero, ← Nat.mul_assoc, Nat.mul_comm runLength 2]

/-- Every place lies in a run. -/
theorem exists_run (ordinal : Nat) : ∃ halvings place, ordinal = halvings * runLength + place ∧
    (halvings = 0 ∨ runLength ≤ place) ∧ place < 2 * runLength := by
  have hR : 0 < runLength := by decide
  by_cases hsmall : ordinal < runLength
  · exact ⟨0, ordinal, by omega, .inl rfl, by omega⟩
  · have hmod := Nat.mod_lt ordinal hR
    have hdiv := Nat.div_add_mod ordinal runLength
    have hpos : 1 ≤ ordinal / runLength := (Nat.one_le_div_iff hR).mpr (Nat.le_of_not_lt hsmall)
    refine ⟨ordinal / runLength - 1, ordinal % runLength + runLength, ?_, .inr (by omega), by omega⟩
    rw [Nat.sub_mul, Nat.one_mul, Nat.mul_comm]
    have hle : runLength ≤ runLength * (ordinal / runLength) := Nat.le_mul_of_pos_right _ hpos
    omega

/-- A magnitude and the next one are multiples of one power of two, next to each other. -/
theorem exists_units (ordinal : Nat) : ∃ halvings place, place < 2 * runLength ∧
    unitsAt ordinal = place * 2 ^ halvings ∧
    unitsAt (ordinal + 1) = (place + 1) * 2 ^ halvings := by
  obtain ⟨halvings, place, rfl, hrun, hplace⟩ := exists_run ordinal
  refine ⟨halvings, place, hplace, unitsAt_run hrun (Nat.le_of_lt hplace), ?_⟩
  rw [Nat.add_assoc, unitsAt_run]
  · exact hrun.imp id fun h => by omega
  · omega

theorem unitsAt_strictMono : StrictMono unitsAt := by
  refine strictMono_nat_of_lt_succ fun ordinal => ?_
  obtain ⟨halvings, place, -, hunits, hnext⟩ := exists_units ordinal
  rw [hunits, hnext]
  exact Nat.mul_lt_mul_of_pos_right (Nat.lt_succ_self _) (Nat.pow_pos Nat.two_pos)

/-- Neighbours differ by more than a `10¹⁶`th of the larger one. -/
theorem unitsAt_lt_gap (ordinal : Nat) :
    unitsAt (ordinal + 1) + 10 ^ 16 * unitsAt ordinal < 10 ^ 16 * unitsAt (ordinal + 1) := by
  obtain ⟨halvings, place, hplace, hunits, hnext⟩ := exists_units ordinal
  have hstep : (place + 1) * 2 ^ halvings < 10 ^ 16 * 2 ^ halvings := by
    refine Nat.mul_lt_mul_of_pos_right ?_ (Nat.pow_pos Nat.two_pos)
    have hlength : 2 * runLength < 10 ^ 16 := by decide
    omega
  rw [Nat.add_mul, Nat.one_mul] at hstep
  rw [hunits, hnext, Nat.add_mul, Nat.one_mul, Nat.mul_add]
  omega

/-! ## The interval around a magnitude -/

/-- The value lies between the midpoints to the neighbours of a magnitude, or on one of them if the
place of the magnitude is even. Values are counted in units. -/
def Near (ordinal : Nat) (value : ℚ) : Prop :=
  if ordinal % 2 = 0 then
    (unitsAt (ordinal - 1) + unitsAt ordinal : ℚ) ≤ 2 * value ∧
      2 * value ≤ unitsAt ordinal + unitsAt (ordinal + 1)
  else
    (unitsAt (ordinal - 1) + unitsAt ordinal : ℚ) < 2 * value ∧
      2 * value < unitsAt ordinal + unitsAt (ordinal + 1)

variable {ordinal : Nat} {value : ℚ}

theorem Near.le (h : Near ordinal value) :
    (unitsAt (ordinal - 1) + unitsAt ordinal : ℚ) ≤ 2 * value ∧
      2 * value ≤ unitsAt ordinal + unitsAt (ordinal + 1) := by
  unfold Near at h
  split at h
  · exact h
  · exact ⟨h.1.le, h.2.le⟩

theorem Near.lt (h : Near ordinal value) (hodd : ordinal % 2 = 1) :
    (unitsAt (ordinal - 1) + unitsAt ordinal : ℚ) < 2 * value ∧
      2 * value < unitsAt ordinal + unitsAt (ordinal + 1) := by
  unfold Near at h
  rwa [if_neg (by omega)] at h

theorem Near.of_lt (hlow : (unitsAt (ordinal - 1) + unitsAt ordinal : ℚ) < 2 * value)
    (hhigh : 2 * value < unitsAt ordinal + unitsAt (ordinal + 1)) : Near ordinal value := by
  unfold Near
  split
  · exact ⟨hlow.le, hhigh.le⟩
  · exact ⟨hlow, hhigh⟩

/-! ## Rounding -/

/-- A fraction is rounded to a whole number that is at most a half away, and to an even one if it is
just a half away. -/
theorem roundHalfEven_eq {num den whole : Nat} (hlow : 2 * whole * den ≤ 2 * num + den)
    (hhigh : 2 * num ≤ (2 * whole + 1) * den)
    (hodd : whole % 2 = 1 → 2 * whole * den < 2 * num + den ∧ 2 * num < (2 * whole + 1) * den)
    (hden : 0 < den) : roundHalfEven num den = whole := by
  have hnum := Nat.div_add_mod num den
  have hrest := Nat.mod_lt num hden
  unfold roundHalfEven
  simp only []
  generalize num / den = quotient at *
  generalize num % den = rest at *
  subst hnum
  -- the quotient is the whole number, or the one before it
  rcases Nat.lt_or_ge whole quotient with hlt | hle
  · -- a quotient above the whole number would be more than a half away
    obtain ⟨more, rfl⟩ := Nat.exists_eq_add_of_lt hlt
    have := Nat.zero_le (den * more)
    nlinarith
  · rcases Nat.eq_or_lt_of_le hle with rfl | hlt
    · rw [if_pos]
      rcases Nat.mod_two_eq_zero_or_one quotient with heven | hone
      · have hhalf : 2 * rest ≤ den := by nlinarith
        rcases Nat.lt_or_eq_of_le hhalf with h | h
        · exact .inl h
        · exact .inr ⟨h, heven⟩
      · refine .inl ?_
        have := (hodd hone).2
        nlinarith
    · obtain ⟨more, rfl⟩ := Nat.exists_eq_add_of_lt hlt
      have hmore : more = 0 := by
        by_contra hne
        have : den ≤ den * more := Nat.le_mul_of_pos_right _ (Nat.pos_of_ne_zero hne)
        nlinarith
      subst hmore
      rw [if_neg, Nat.add_zero]
      rintro (hhalf | ⟨hhalf, heven⟩)
      · nlinarith
      · have := (hodd (by omega)).1
        nlinarith

/-- A value between the start and the end of a run is near to no magnitude outside the run. -/
theorem Near.exists_place (h : Near ordinal value) {halvings : Nat}
    (hlow : halvings = 0 ∨ (runLength * 2 ^ halvings : ℚ) ≤ value)
    (hhigh : value < 2 * runLength * 2 ^ halvings) :
    ∃ place, ordinal = halvings * runLength + place ∧ (halvings = 0 ∨ runLength ≤ place) ∧
      place ≤ 2 * runLength := by
  have hcast {i j : Nat} (hij : i < j) : (unitsAt i : ℚ) < unitsAt j := by
    exact_mod_cast unitsAt_strictMono hij
  have hend : (unitsAt (halvings * runLength + 2 * runLength) : ℚ) =
      2 * runLength * 2 ^ halvings := by
    rw [unitsAt_run (.inr (by omega)) (Nat.le_refl _)]
    push_cast
    ring
  -- past the end of the run, even the midpoint to the magnitude before is too large
  have hupper : ordinal ≤ halvings * runLength + 2 * runLength := by
    by_contra hlt
    have hbefore :
        (unitsAt (halvings * runLength + 2 * runLength) : ℚ) ≤ unitsAt (ordinal - 1) := by
      exact_mod_cast unitsAt_strictMono.monotone (by omega)
    have hstep := hcast (i := ordinal - 1) (j := ordinal) (by omega)
    have := h.le.1
    linarith
  rcases hlow with rfl | hlow
  · exact ⟨ordinal, by omega, .inl rfl, by omega⟩
  · have hstart : (unitsAt (halvings * runLength + runLength) : ℚ) = runLength * 2 ^ halvings := by
      rw [unitsAt_run (.inr (Nat.le_refl _)) (by omega)]
      push_cast
      ring
    have hlower : halvings * runLength + runLength ≤ ordinal := by
      by_contra hlt
      have hafter : (unitsAt (ordinal + 1) : ℚ) ≤ unitsAt (halvings * runLength + runLength) := by
        exact_mod_cast unitsAt_strictMono.monotone (by omega)
      have hstep := hcast (Nat.lt_succ_self ordinal)
      have := h.le.2
      linarith
    exact ⟨ordinal - halvings * runLength, by omega, .inr (by omega), by omega⟩

section

variable {halvings place : Nat} (hrun : halvings = 0 ∨ runLength ≤ place)
  (hplace : place ≤ 2 * runLength)

include hrun hplace

theorem units_run : (unitsAt (halvings * runLength + place) : ℚ) = place * 2 ^ halvings := by
  rw [unitsAt_run hrun hplace]
  push_cast
  ring

omit hrun hplace in
theorem run_mod_two : (halvings * runLength + place) % 2 = place % 2 := by
  have hR : runLength = 2 * 2 ^ 51 := by decide
  rw [hR]
  omega

/-- What is near to a magnitude is at most half a step above it. -/
theorem Near.above (h : Near (halvings * runLength + place) value)
    (hhigh : value < 2 * runLength * 2 ^ halvings) :
    2 * value ≤ (2 * place + 1) * 2 ^ halvings ∧
      (place % 2 = 1 → 2 * value < (2 * place + 1) * 2 ^ halvings) := by
  have hunits := units_run hrun hplace
  rcases Nat.lt_or_eq_of_le hplace with hlt | rfl
  · -- the next magnitude is one step away
    have hnext : (unitsAt (halvings * runLength + place + 1) : ℚ) = (place + 1) * 2 ^ halvings := by
      rw [Nat.add_assoc, units_run (hrun.imp id Nat.le_succ_of_le) hlt]
      push_cast
      ring
    refine ⟨?_, fun hodd => ?_⟩
    · have hle := h.le.2
      rw [hunits, hnext] at hle
      linarith
    · have hlt := (h.lt (run_mod_two.trans hodd)).2
      rw [hunits, hnext] at hlt
      linarith
  · -- the run ends
    push_cast
    have hpow : (0 : ℚ) < 2 ^ halvings := by positivity
    have hlt : 2 * value < (2 * (2 * runLength) + 1) * 2 ^ halvings := by linarith
    exact ⟨hlt.le, fun _ => hlt⟩

/-- What is near to a magnitude is at most half a step below it. -/
theorem Near.below (h : Near (halvings * runLength + place) value)
    (hlow : halvings = 0 ∨ (runLength * 2 ^ halvings : ℚ) ≤ value) :
    2 * place * 2 ^ halvings ≤ 2 * value + 2 ^ halvings ∧
      (place % 2 = 1 → 2 * place * 2 ^ halvings < 2 * value + 2 ^ halvings) := by
  have hpow : (0 : ℚ) < 2 ^ halvings := by positivity
  have hunits := units_run hrun hplace
  by_cases hfirst : 0 < place ∧ (halvings = 0 ∨ runLength < place)
  · -- the magnitude before is one step away
    obtain ⟨before, rfl⟩ := Nat.exists_eq_succ_of_ne_zero hfirst.1.ne'
    have hbefore :
        (unitsAt (halvings * runLength + before.succ - 1) : ℚ) = before * 2 ^ halvings := by
      rw [show halvings * runLength + before.succ - 1 = halvings * runLength + before by omega]
      exact units_run (hfirst.2.imp id Nat.le_of_lt_succ) (Nat.le_of_succ_le hplace)
    push_cast at hunits ⊢
    refine ⟨?_, fun hodd => ?_⟩
    · have hle := h.le.1
      rw [hunits, hbefore] at hle
      linarith
    · have hlt := (h.lt (run_mod_two.trans hodd)).1
      rw [hunits, hbefore] at hlt
      linarith
  · -- the run starts, or all runs do
    have hstart : (place * 2 ^ halvings : ℚ) ≤ value ∨ place = 0 := by
      rcases hlow with hzero | hlow
      · exact .inr (by omega)
      · have hle : place = runLength ∨ place = 0 := by omega
        rcases hle with rfl | hzero
        · exact .inl hlow
        · exact .inr hzero
    rcases hstart with hstart | rfl
    · have hlt : 2 * place * 2 ^ halvings < 2 * value + 2 ^ halvings := by linarith
      exact ⟨hlt.le, fun _ => hlt⟩
    · refine ⟨?_, fun hodd => absurd hodd (by decide)⟩
      have hle := h.le.1
      have hnonneg : (0 : ℚ) ≤ unitsAt (halvings * runLength + 0 - 1) := Nat.cast_nonneg _
      rw [hunits] at hle
      push_cast at hle ⊢
      linarith

end

/-- A fraction is halved until its whole part has at most 53 bits, and then it lies in a run. -/
theorem halvings_bounds (num : Nat) {den : Nat} (hden : 0 < den) :
    ((num / den).log2 - 52 = 0 ∨ (runLength * 2 ^ ((num / den).log2 - 52) : ℚ) ≤ num / den) ∧
      (num / den : ℚ) < 2 * runLength * 2 ^ ((num / den).log2 - 52) := by
  have hden' : (0 : ℚ) < den := by exact_mod_cast hden
  -- the fraction lies between its whole part and the next whole number
  have hfloor : ((num / den : ℕ) : ℚ) ≤ num / den := by
    rw [le_div_iff₀ hden']
    exact_mod_cast Nat.div_mul_le_self num den
  have hceil : (num / den : ℚ) < (num / den : ℕ) + 1 := by
    rw [div_lt_iff₀ hden']
    exact_mod_cast Nat.lt_mul_of_div_lt (Nat.lt_succ_self (num / den)) hden
  generalize hhalvings : (num / den).log2 - 52 = halvings
  constructor
  · rcases Nat.eq_zero_or_pos halvings with hzero | hpos
    · exact .inl hzero
    · have hlog : (num / den).log2 = 52 + halvings := by omega
      have hne : num / den ≠ 0 := by
        intro hzero
        rw [hzero, Nat.log2_zero] at hlog
        omega
      have hpow := Nat.log2_self_le hne
      rw [hlog, Nat.pow_add] at hpow
      have hsize : (runLength * 2 ^ halvings : ℚ) ≤ (num / den : ℕ) := by exact_mod_cast hpow
      exact .inr (hsize.trans hfloor)
  · -- the power above the whole part is a whole number, so it is above the fraction as well
    have hlog : (num / den).log2 + 1 ≤ 53 + halvings := by omega
    have hsize := Nat.le_trans Nat.lt_log2_self (Nat.pow_le_pow_right Nat.two_pos hlog)
    rw [Nat.pow_add] at hsize
    have hsize : ((num / den : ℕ) : ℚ) + 1 ≤ 2 * runLength * 2 ^ halvings := by exact_mod_cast hsize
    exact hceil.trans_le hsize

/-- What is near to a finite magnitude is rounded to it. -/
theorem nearest_eq {num den : Nat} (hden : 0 < den) (hfinite : ordinal < infinityOrdinal)
    (h : Near ordinal (num / den : ℚ)) : nearest num den = ordinal := by
  have hden' : (0 : ℚ) < den := by exact_mod_cast hden
  have hnum : (num / den : ℚ) * den = num := div_mul_cancel₀ _ hden'.ne'
  obtain ⟨hlow, hhigh⟩ := halvings_bounds num hden
  unfold nearest
  simp only []
  generalize (num / den).log2 - 52 = halvings at *
  generalize (num / den : ℚ) = value at *
  -- the fraction and the magnitude that it is near to lie in one run, where rounding finds the
  -- place
  obtain ⟨place, rfl, hrun, hplace⟩ := h.exists_place hlow hhigh
  have habove := h.above hrun hplace hhigh
  have hbelow := h.below hrun hplace hlow
  have hround : roundHalfEven num (den <<< halvings) = place := by
    rw [Nat.shiftLeft_eq]
    have hscaled {a b : ℚ} (hab : a ≤ b) : a * den ≤ b * den :=
      mul_le_mul_of_nonneg_right hab hden'.le
    have hscaled' {a b : ℚ} (hab : a < b) : a * den < b * den := mul_lt_mul_of_pos_right hab hden'
    refine roundHalfEven_eq ?_ ?_ (fun hodd => ⟨?_, ?_⟩)
      (Nat.mul_pos hden (Nat.pow_pos Nat.two_pos))
    · have hle := hscaled hbelow.1
      rw [← @Nat.cast_le ℚ]
      push_cast
      linarith
    · have hle := hscaled habove.1
      rw [← @Nat.cast_le ℚ]
      push_cast
      linarith
    · have hlt := hscaled' (hbelow.2 hodd)
      rw [← @Nat.cast_lt ℚ]
      push_cast
      linarith
    · have hlt := hscaled' (habove.2 hodd)
      rw [← @Nat.cast_lt ℚ]
      push_cast
      linarith
  rw [hround]
  exact Nat.min_eq_right (Nat.le_of_lt hfinite)

end TypeGraph.Binary64
