import Mathlib.Tactic.FieldSimp
import Mathlib.Tactic.Positivity
import TypeGraph.Number.Layout
import TypeGraph.Proofs.Number.Nearest

/-!
# Numbers are read back from their shortest digits

The digits that a number is written with lie in the interval of what is rounded to the number. Some
digits always do: a decimal with seventeen of them is within a `10¹⁶`th of the number, and so are
its neighbours in the format not.

Main results:

* `Binary64.exists_shortest`: the shortest digits are near to the number.
* `Layout.nearest_numeral`: a finite number is what its numeral is rounded to.
-/

namespace TypeGraph

/-! ## Digits -/

namespace Digits

theorem foldl_eq (n : Nat) (digits : List Digit) :
    digits.foldl (fun n d => 10 * n + d.val) n = n * 10 ^ digits.length + toNat digits := by
  unfold toNat
  induction digits generalizing n with
  | nil => simp
  | cons d rest ih =>
    rw [List.foldl_cons, List.foldl_cons, ih, ih (10 * 0 + d.val), List.length_cons, Nat.pow_succ]
    ring

theorem toNat_append (digits more : List Digit) :
    toNat (digits ++ more) = toNat digits * 10 ^ more.length + toNat more := by
  rw [toNat, List.foldl_append, foldl_eq]
  rfl

theorem toNat_replicate_zero (count : Nat) : toNat (List.replicate count Digit.zero) = 0 := by
  induction count with
  | zero => rfl
  | succ count ih =>
    rw [List.replicate_succ', toNat_append, ih, Nat.zero_mul]
    rfl

/-- The digits of a number stand for the number. -/
theorem toNat_ofNat (n : Nat) : toNat (ofNat n) = n := by
  induction n using ofNat.induct with
  | case1 n h =>
    rw [ofNat, dif_pos h]
    exact Nat.zero_add n
  | case2 n h ih =>
    rw [ofNat, dif_neg h, toNat_append, ih]
    change n / 10 * 10 ^ 1 + (0 + n % 10) = n
    omega

theorem length_ofNat_pos (n : Nat) : 0 < (ofNat n).length := by
  rw [ofNat]
  split
  · exact Nat.one_pos
  · rw [List.length_append]
    exact Nat.succ_pos _

theorem pow_length_ofNat_le {n : Nat} (h : 0 < n) : 10 ^ ((ofNat n).length - 1) ≤ n := by
  induction n using ofNat.induct with
  | case1 n hsmall =>
    rw [ofNat, dif_pos hsmall]
    exact h
  | case2 n hlarge ih =>
    have hpos : 0 < n / 10 := Nat.div_pos (Nat.le_of_not_lt hlarge) (by decide)
    rw [ofNat, dif_neg hlarge, List.length_append, List.length_singleton, Nat.add_sub_cancel]
    obtain ⟨count, hcount⟩ := Nat.exists_eq_succ_of_ne_zero (length_ofNat_pos (n / 10)).ne'
    have hle := ih hpos
    rw [hcount, Nat.succ_sub_one] at hle
    rw [hcount, Nat.pow_succ]
    omega

/-- What is cut off at the end are zeros. -/
theorem exists_trimRight (digits : List Digit) :
    ∃ count, digits = trimRight digits ++ List.replicate count Digit.zero := by
  refine ⟨(digits.reverse.takeWhile (· == Digit.zero)).length, ?_⟩
  have hzeros : digits.reverse.takeWhile (· == Digit.zero) =
      List.replicate (digits.reverse.takeWhile (· == Digit.zero)).length Digit.zero := by
    rw [List.eq_replicate_iff]
    exact ⟨rfl, fun d hd => eq_of_beq (List.all_eq_true.mp List.all_takeWhile d hd)⟩
  calc digits = digits.reverse.reverse := (List.reverse_reverse digits).symm
    _ = (digits.reverse.dropWhile (· == Digit.zero)).reverse ++
        (digits.reverse.takeWhile (· == Digit.zero)).reverse := by
      rw [← List.reverse_append, List.takeWhile_append_dropWhile]
    _ = _ := by
      rw [hzeros, List.reverse_replicate, List.length_replicate]
      rfl

theorem weight_eq (places : Nat) : weight places = 10 ^ places := rfl

theorem cast_weight (places : Nat) : ((weight places : ℕ) : ℚ) = 10 ^ (places : ℤ) := by
  rw [weight_eq, Nat.cast_pow, zpow_natCast]
  rfl

end Digits

/-! ## Values -/

/-- The value of a numeral without its sign. -/
def Numeral.magnitude (n : Numeral) : ℚ :=
  Digits.toNat (n.whole ++ n.fraction) * 10 ^ (n.exponent.getD 0 - n.fraction.length : ℤ)

/-- The value of shortest digits. -/
def Scientific.magnitude (s : Scientific) : ℚ :=
  Digits.toNat s.digits * 10 ^ (s.exponent - s.digits.length + 1)

namespace Layout

variable (layout : Layout) (negative : Bool) {s : Scientific}

theorem magnitude_plain (hdigits : s.digits ≠ []) :
    (layout.plain negative s).magnitude = s.magnitude := by
  unfold plain Scientific.magnitude
  have hlength := List.length_pos_iff.mpr hdigits
  split
  · rename_i hexponent
    -- the zeros in front count for nothing
    have hzeros : Digits.toNat ([Digit.zero] ++
        (List.replicate ((-s.exponent).toNat - 1) Digit.zero ++ s.digits)) =
          Digits.toNat s.digits := by
      rw [Digits.toNat_append, Digits.toNat_append, Digits.toNat_replicate_zero]
      change 0 * _ + _ = _
      rw [Nat.zero_mul, Nat.zero_mul, Nat.zero_add, Nat.zero_add]
    have hplaces :
        (0 - ((List.replicate ((-s.exponent).toNat - 1) Digit.zero ++ s.digits).length : ℤ)) =
          s.exponent - s.digits.length + 1 := by
      rw [List.length_append, List.length_replicate]
      omega
    rw [Numeral.magnitude, hzeros]
    exact congrArg (fun place : ℤ => (Digits.toNat s.digits : ℚ) * 10 ^ place) hplaces
  · rename_i hexponent
    have hexponent : (s.exponent.toNat : ℤ) = s.exponent := Int.toNat_of_nonneg (by omega)
    rcases Nat.lt_or_ge (s.exponent.toNat + 1) s.digits.length with hlt | hle
    · -- the point stands among the digits
      have hfraction : (s.digits.drop (s.exponent.toNat + 1)).isEmpty = false := by
        rw [List.isEmpty_eq_false_iff, ne_eq, List.drop_eq_nil_iff]
        omega
      have hzeros : s.exponent.toNat + 1 - s.digits.length = 0 := by omega
      simp only [hfraction, Bool.false_and, Bool.false_eq_true, if_false, hzeros,
        List.replicate_zero, List.append_nil, Numeral.magnitude, List.take_append_drop,
        List.length_drop, Option.getD_none]
      congr 2
      omega
    · -- zeros fill the places up to the point
      have hdrop : s.digits.drop (s.exponent.toNat + 1) = [] := List.drop_eq_nil_of_le hle
      have htake : s.digits.take (s.exponent.toNat + 1) = s.digits := List.take_of_length_le hle
      have hwhole :
          (Digits.toNat
            (s.digits ++ List.replicate (s.exponent.toNat + 1 - s.digits.length) Digit.zero) : ℚ) =
            Digits.toNat s.digits * 10 ^ (s.exponent - s.digits.length + 1) := by
        rw [Digits.toNat_append, Digits.toNat_replicate_zero, List.length_replicate, Nat.add_zero]
        push_cast
        rw [← zpow_natCast]
        congr 2
        omega
      simp only [hdrop, htake, List.isEmpty_nil, Bool.true_and]
      split
      · rw [Numeral.magnitude, Digits.toNat_append, ← hwhole]
        change ((_ * 10 ^ 1 + 0 : ℕ) : ℚ) * 10 ^ (0 - ((1 : ℕ) : ℤ)) = _
        push_cast
        rw [add_zero, zpow_neg_one, mul_assoc, mul_inv_cancel₀ (by norm_num), mul_one]
      · rw [Numeral.magnitude, List.append_nil, ← hwhole]
        simp

theorem magnitude_scientific (hdigits : s.digits ≠ []) :
    (scientific negative s).magnitude = s.magnitude := by
  have hlength := List.length_pos_iff.mpr hdigits
  have hplaces :
      (s.exponent - ((s.digits.drop 1).length : ℤ)) = s.exponent - s.digits.length + 1 := by
    rw [List.length_drop]
    omega
  unfold Numeral.magnitude Scientific.magnitude scientific
  rw [List.take_append_drop, Option.getD_some, hplaces]

/-- A layout keeps the value. -/
theorem magnitude_ofScientific (hdigits : s.digits ≠ []) :
    (layout.ofScientific negative s).magnitude = s.magnitude := by
  unfold ofScientific
  split
  · exact layout.magnitude_plain negative hdigits
  · exact magnitude_scientific negative hdigits

end Layout

namespace Binary64

/-! ## Shortest digits -/

theorem unitsPerOne_pos : 0 < unitsPerOne := by decide +kernel

theorem unitsPerOne_lt : 4 * unitsPerOne < Digits.weight 400 := by decide +kernel

theorem unitsAt_infinity_lt : unitsAt infinityOrdinal < Digits.weight 309 * unitsPerOne := by
  decide +kernel

/-- A multiple is read back as a magnitude if it is near to it. -/
theorem readsBack_iff {ordinal multiple num den : Nat} (hden : 0 < den) :
    readsBack ordinal multiple num den = true ↔ Near ordinal (multiple * (num / den : ℚ)) := by
  have hden' : (0 : ℚ) < den := by exact_mod_cast hden
  have hpoint : 2 * (multiple * (num / den : ℚ)) = (2 * multiple * num : ℕ) / den := by
    push_cast
    ring
  unfold readsBack Near
  rw [hpoint]
  simp only [le_div_iff₀ hden', div_le_iff₀ hden', lt_div_iff₀ hden', div_lt_iff₀ hden']
  split
  · rw [Bool.and_eq_true, decide_eq_true_iff, decide_eq_true_iff]
    norm_cast
  · rw [Bool.and_eq_true, decide_eq_true_iff, decide_eq_true_iff]
    norm_cast

/-- The multiple that is found reads back, and is one of the two around the magnitude. -/
theorem of_nearestReading {tie : Tie} {ordinal num den multiple : Nat}
    (h : nearestReading tie ordinal num den = some multiple) :
    readsBack ordinal multiple num den = true ∧ multiple ≤ unitsAt ordinal * den / num + 1 := by
  unfold nearestReading at h
  simp only [] at h
  generalize unitsAt ordinal * den / num = below at h ⊢
  -- which of the two read back
  cases hbelow : readsBack ordinal below num den <;>
    cases habove : readsBack ordinal (below + 1) num den <;>
    simp only [hbelow, habove] at h
  · cases h
  · cases h
    exact ⟨habove, Nat.le_refl _⟩
  · cases h
    exact ⟨hbelow, Nat.le_succ _⟩
  · -- both do: whichever is nearer, or the one that the tie goes to
    have hmultiple : multiple = below ∨ multiple = below + 1 := by
      split at h
      · exact .inl (Option.some.inj h).symm
      · split at h
        · exact .inr (Option.some.inj h).symm
        · cases tie <;> simp only [Option.some.injEq] at h
          · split at h
            · exact .inl h.symm
            · exact .inr h.symm
          · exact .inr h.symm
    rcases hmultiple with rfl | rfl
    · exact ⟨hbelow, Nat.le_succ _⟩
    · exact ⟨habove, Nat.le_refl _⟩

/-- The number of units in a power of ten. -/
theorem weight_div_weight (place : ℤ) :
    ((Digits.weight place.toNat * unitsPerOne : ℕ) / (Digits.weight (-place).toNat : ℕ) : ℚ) =
      10 ^ place * unitsPerOne := by
  rw [Digits.weight_eq, Digits.weight_eq]
  push_cast
  rw [← zpow_natCast, ← zpow_natCast, mul_div_right_comm, ← zpow_sub₀ (by norm_num)]
  congr 2
  omega

/-- One of the two multiples of a small step around a magnitude is read back. -/
theorem exists_nearestReading (tie : Tie) {ordinal num den : Nat} (hordinal : 0 < ordinal)
    (hnum : 0 < num) (hden : 0 < den) (hstep : (10 ^ 16 * (num / den) : ℚ) ≤ unitsAt ordinal) :
    ∃ multiple, nearestReading tie ordinal num den = some multiple := by
  have hnum' : (0 : ℚ) < num := by exact_mod_cast hnum
  have hden' : (0 : ℚ) < den := by exact_mod_cast hden
  generalize hbelow : unitsAt ordinal * den / num = below
  -- the magnitude lies between two multiples of the step
  have hlow : (below * (num / den) : ℚ) ≤ unitsAt ordinal := by
    rw [← mul_div_assoc, div_le_iff₀ hden']
    exact_mod_cast hbelow ▸ Nat.div_mul_le_self (unitsAt ordinal * den) num
  have hhigh : (unitsAt ordinal : ℚ) < (below + 1) * (num / den) := by
    rw [← mul_div_assoc, lt_div_iff₀ hden']
    exact_mod_cast hbelow ▸ Nat.lt_mul_of_div_lt (Nat.lt_succ_self _) hnum
  -- the step is smaller than the distances to the neighbours
  have hafter : ((unitsAt (ordinal + 1) : ℚ) + 10 ^ 16 * unitsAt ordinal <
      10 ^ 16 * unitsAt (ordinal + 1)) := by exact_mod_cast unitsAt_lt_gap ordinal
  have hbefore : ((unitsAt ordinal : ℚ) + 10 ^ 16 * unitsAt (ordinal - 1) <
      10 ^ 16 * unitsAt ordinal) := by
    have hgap := unitsAt_lt_gap (ordinal - 1)
    rw [Nat.sub_add_cancel hordinal] at hgap
    exact_mod_cast hgap
  have hmono : (unitsAt ordinal : ℚ) < unitsAt (ordinal + 1) := by
    exact_mod_cast unitsAt_strictMono (Nat.lt_succ_self ordinal)
  generalize hratio : (num / den : ℚ) = step at *
  have hread :
      readsBack ordinal below num den = true ∨ readsBack ordinal (below + 1) num den = true := by
    rw [readsBack_iff hden, readsBack_iff hden, hratio]
    push_cast
    -- the nearer one of the two is at most half a step away
    rcases le_or_gt (2 * (unitsAt ordinal - below * step)) step with hnear | hfar
    · exact .inl (.of_lt (by linarith) (by linarith))
    · exact .inr (.of_lt (by linarith) (by linarith))
  unfold nearestReading
  simp only [hbelow]
  cases hb : readsBack ordinal below num den <;> cases ha : readsBack ordinal (below + 1) num den
  · rw [hb, ha] at hread
    rcases hread with h | h <;> cases h
  · exact ⟨_, rfl⟩
  · exact ⟨_, rfl⟩
  · dsimp only
    split
    · exact ⟨_, rfl⟩
    · split
      · exact ⟨_, rfl⟩
      · cases tie <;> exact ⟨_, rfl⟩

theorem cast_weight_pos : (0 : ℚ) < (Digits.weight 400 : ℕ) :=
  Digits.cast_weight 400 ▸ zpow_pos (by norm_num) _

/-- A power of ten that may be a fraction, by one that is none. -/
theorem zpow_eq_div_weight {exponent : ℤ} {length : Nat} (h : exponent = length - 400) :
    (10 : ℚ) ^ exponent = 10 ^ length / (Digits.weight 400 : ℕ) := by
  rw [Digits.cast_weight, ← zpow_natCast, ← zpow_sub₀ (by norm_num), h]
  rfl

/-- The exponent is that of a power of ten at or below the magnitude. -/
theorem pow_decimalExponent_le {ordinal : Nat} (hordinal : 0 < ordinal) :
    (10 ^ decimalExponent ordinal * unitsPerOne : ℚ) ≤ unitsAt ordinal := by
  have hunits : 1 ≤ unitsAt ordinal := by
    have := unitsAt_strictMono hordinal
    omega
  have hscaled : 0 < unitsAt ordinal * Digits.weight 400 / unitsPerOne := by
    refine Nat.div_pos ?_ unitsPerOne_pos
    have := unitsPerOne_lt
    nlinarith
  have hdigits := Digits.pow_length_ofNat_le hscaled
  have hfloor := Nat.div_mul_le_self (unitsAt ordinal * Digits.weight 400) unitsPerOne
  have hlength := Digits.length_ofNat_pos (unitsAt ordinal * Digits.weight 400 / unitsPerOne)
  -- the number of digits of the magnitude, scaled up so that it has a whole part, gives the
  -- exponent
  unfold decimalExponent
  generalize (Digits.ofNat (unitsAt ordinal * Digits.weight 400 / unitsPerOne)).length = length at *
  have hle : 10 ^ (length - 1) * unitsPerOne ≤ unitsAt ordinal * Digits.weight 400 :=
    (Nat.mul_le_mul_right _ hdigits).trans hfloor
  have hexponent : (length : ℤ) - 401 = (length - 1 : ℕ) - 400 := by omega
  rw [zpow_eq_div_weight hexponent, div_mul_eq_mul_div, div_le_iff₀ cast_weight_pos]
  exact_mod_cast hle

/-- What the search for digits ends with is near to the number. -/
theorem exists_shortestFrom (tie : Tie) {ordinal : Nat} (hordinal : 0 < ordinal) {tries count : Nat}
    (htries : 0 < tries) (hcount : count + tries = 18) :
    ∃ (multiple : Nat) (place : ℤ), Near ordinal (multiple * (10 ^ place * unitsPerOne : ℚ)) ∧
      shortestFrom tie ordinal (decimalExponent ordinal) count tries =
        ⟨Digits.trimRight (Digits.ofNat multiple), place + (Digits.ofNat multiple).length - 1⟩ := by
  have hpos (place : ℤ) : 0 < Digits.weight place.toNat * unitsPerOne ∧
      0 < Digits.weight (-place).toNat :=
    ⟨Nat.mul_pos (Nat.pow_pos (by decide)) unitsPerOne_pos, Nat.pow_pos (by decide)⟩
  -- induction on the tries, of which the last one has seventeen digits
  induction tries generalizing count with
  | zero => exact absurd htries (Nat.lt_irrefl 0)
  | succ tries ih =>
    rw [shortestFrom]
    simp only []
    generalize hplace : decimalExponent ordinal - count + 1 = place
    obtain ⟨hnum, hden⟩ := hpos place
    cases hread : nearestReading tie ordinal (Digits.weight place.toNat * unitsPerOne)
        (Digits.weight (-place).toNat) with
    | some multiple =>
      refine ⟨multiple, place, ?_, rfl⟩
      have hnear := (readsBack_iff hden).mp (of_nearestReading hread).1
      rwa [weight_div_weight] at hnear
    | none =>
      rcases Nat.eq_zero_or_pos tries with rfl | htries'
      · -- at seventeen digits the steps are small
        have hstep : (10 ^ 16 * ((Digits.weight place.toNat * unitsPerOne : ℕ) /
            (Digits.weight (-place).toNat : ℕ)) : ℚ) ≤ unitsAt ordinal := by
          rw [weight_div_weight, ← mul_assoc]
          have hpow : (10 ^ 16 * 10 ^ place : ℚ) = 10 ^ decimalExponent ordinal := by
            rw [← zpow_natCast, ← zpow_add₀ (by norm_num)]
            congr 1
            omega
          rw [hpow]
          exact pow_decimalExponent_le hordinal
        obtain ⟨multiple, hmultiple⟩ := exists_nearestReading tie hordinal hnum hden hstep
        rw [hread] at hmultiple
        cases hmultiple
      · exact ih htries' (by omega)

/-- Nothing but zero is near to zero. -/
theorem Near.pos {ordinal : Nat} {value : ℚ} (h : Near ordinal value) (hordinal : 0 < ordinal) :
    1 ≤ 2 * value := by
  have hunits : 1 ≤ unitsAt ordinal := by
    have := unitsAt_strictMono hordinal
    omega
  have hunits' : (1 : ℚ) ≤ unitsAt ordinal := by exact_mod_cast hunits
  have hbefore : (0 : ℚ) ≤ unitsAt (ordinal - 1) := Nat.cast_nonneg _
  have hle := h.le.1
  linarith

/-- The shortest digits of a number other than zero are near to it. -/
theorem exists_shortest (tie : Tie) {x : Binary64} (hzero : 0 < x.ordinal) :
    (x.shortest tie).digits ≠ [] ∧ Near x.ordinal ((x.shortest tie).magnitude * unitsPerOne) := by
  obtain ⟨multiple, place, hnear, hshortest⟩ := exists_shortestFrom tie hzero (Nat.succ_pos 16) rfl
  obtain ⟨count, hdigits⟩ := Digits.exists_trimRight (Digits.ofNat multiple)
  have hmultiple := congrArg Digits.toNat hdigits
  have hlength := congrArg List.length hdigits
  -- the zeros that are cut off go into the exponent
  rw [Digits.toNat_ofNat, Digits.toNat_append, Digits.toNat_replicate_zero, List.length_replicate,
    Nat.add_zero] at hmultiple
  rw [List.length_append, List.length_replicate] at hlength
  rw [shortest, hshortest]
  generalize Digits.trimRight (Digits.ofNat multiple) = digits at *
  generalize (Digits.ofNat multiple).length = length at *
  subst hmultiple hlength
  constructor
  · -- without digits the value would be zero
    rintro rfl
    have hpos := hnear.pos hzero
    norm_num [Digits.toNat] at hpos
  · have hvalue : (Scientific.magnitude ⟨digits, place + (digits.length + count : ℕ) - 1⟩) =
        (Digits.toNat digits * 10 ^ count : ℕ) * 10 ^ place := by
      rw [Scientific.magnitude]
      push_cast
      rw [mul_assoc, ← zpow_natCast, ← zpow_add₀ (by norm_num)]
      congr 2
      omega
    rw [hvalue, mul_assoc]
    exact hnear

/-! ## Reading decimals -/

theorem ofRatio_eq {negative : Bool} {num den ordinal : Nat} {hle : ordinal ≤ infinityOrdinal}
    (h : nearest (num * unitsPerOne) den = ordinal) :
    ofRatio negative num den = ofOrdinal negative ordinal hle := by
  subst h
  rfl

/-- What is near to a finite number is below the first power of ten beyond the format. -/
theorem Near.lt_pow {ordinal : Nat} {value : ℚ} (h : Near ordinal value)
    (hfinite : ordinal < infinityOrdinal) : value < 10 ^ (309 : ℤ) * unitsPerOne := by
  have hbound : (unitsAt infinityOrdinal : ℚ) < 10 ^ (309 : ℤ) * unitsPerOne := by
    have hlt : (unitsAt infinityOrdinal : ℚ) < (Digits.weight 309 : ℕ) * (unitsPerOne : ℕ) := by
      exact_mod_cast unitsAt_infinity_lt
    rwa [Digits.cast_weight] at hlt
  -- a finite magnitude and the one after it are at most infinity
  have hself : (unitsAt ordinal : ℚ) ≤ unitsAt infinityOrdinal := by
    exact_mod_cast unitsAt_strictMono.monotone (Nat.le_of_lt hfinite)
  have hnext : (unitsAt (ordinal + 1) : ℚ) ≤ unitsAt infinityOrdinal := by
    exact_mod_cast unitsAt_strictMono.monotone hfinite
  have hnear := h.le.2
  linarith

section

variable {ordinal significand : Nat} {exponent : ℤ}
  (h : Near ordinal (significand * 10 ^ exponent * unitsPerOne : ℚ))

include h

/-- What is near to a finite number is not too large to be read. -/
theorem Near.exponent_lt (hsignificand : significand ≠ 0) (hfinite : ordinal < infinityOrdinal) :
    exponent < 309 := by
  by_contra hlarge
  have hunits : (0 : ℚ) < unitsPerOne := by exact_mod_cast unitsPerOne_pos
  have hone : (1 : ℚ) ≤ significand := by exact_mod_cast Nat.pos_of_ne_zero hsignificand
  have hpow : (10 : ℚ) ^ (309 : ℤ) ≤ 10 ^ exponent := zpow_le_zpow_right₀ (by norm_num) (by omega)
  have hle : (10 ^ (309 : ℤ) * unitsPerOne : ℚ) ≤ significand * 10 ^ exponent * unitsPerOne := by
    refine mul_le_mul_of_nonneg_right (hpow.trans ?_) hunits.le
    exact le_mul_of_one_le_left (zpow_nonneg (by norm_num) _) hone
  exact absurd (h.lt_pow hfinite) (not_lt.mpr hle)

/-- What is near to a number other than zero is not too small to be read. -/
theorem Near.le_exponent (hordinal : 0 < ordinal) : -400 ≤ exponent + significand.log2 := by
  by_contra hsmall
  have hunits : (0 : ℚ) < unitsPerOne := by exact_mod_cast unitsPerOne_pos
  have hbits : (significand : ℚ) ≤ 2 * 10 ^ (significand.log2 : ℤ) := by
    have hlog : significand < 2 ^ (significand.log2 + 1) := Nat.lt_log2_self
    have hpow : 2 ^ significand.log2 ≤ 10 ^ significand.log2 := Nat.pow_le_pow_left (by decide) _
    have hle : significand ≤ 2 * 10 ^ significand.log2 := by
      rw [Nat.pow_succ] at hlog
      omega
    rw [zpow_natCast]
    exact_mod_cast hle
  have hpow : (10 : ℚ) ^ ((significand.log2 : ℤ) + exponent) ≤ 10 ^ (-400 : ℤ) :=
    zpow_le_zpow_right₀ (by norm_num) (by omega)
  have hdecimal : (significand * 10 ^ exponent : ℚ) ≤ 2 * 10 ^ (-400 : ℤ) := by
    calc (significand * 10 ^ exponent : ℚ)
        ≤ 2 * 10 ^ (significand.log2 : ℤ) * 10 ^ exponent :=
          mul_le_mul_of_nonneg_right hbits (zpow_nonneg (by norm_num) _)
      _ = 2 * 10 ^ ((significand.log2 : ℤ) + exponent) := by
          rw [mul_assoc, ← zpow_add₀ (by norm_num)]
      _ ≤ 2 * 10 ^ (-400 : ℤ) := mul_le_mul_of_nonneg_left hpow (by norm_num)
  have hvalue := mul_le_mul_of_nonneg_right hdecimal hunits.le
  -- that is less than half a unit
  have hbound : (4 * unitsPerOne : ℚ) < 10 ^ (400 : ℤ) := by
    have hlt : (4 * unitsPerOne : ℚ) < (Digits.weight 400 : ℕ) := by exact_mod_cast unitsPerOne_lt
    rwa [Digits.cast_weight] at hlt
  have hpositive : (0 : ℚ) < 10 ^ (-400 : ℤ) := zpow_pos (by norm_num) _
  have hinverse : (10 : ℚ) ^ (-400 : ℤ) * 10 ^ (400 : ℤ) = 1 := by
    rw [← zpow_add₀ (by norm_num)]
    exact zpow_zero 10
  have hscaled := mul_lt_mul_of_pos_left hbound hpositive
  have hpos := h.pos hordinal
  rw [hinverse] at hscaled
  linarith

/-- A decimal that is near to a finite number is read as it. -/
theorem ofDecimal_eq (negative : Bool) (hordinal : 0 < ordinal)
    (hfinite : ordinal < infinityOrdinal) :
    ofDecimal negative significand exponent =
      ofOrdinal negative ordinal (Nat.le_of_lt hfinite) := by
  have hsignificand : significand ≠ 0 := by
    rintro rfl
    have hpos := h.pos hordinal
    norm_num at hpos
  have hlarge := Int.not_le.mpr (h.exponent_lt hsignificand hfinite)
  have hsmall := Int.not_lt.mpr (h.le_exponent hordinal)
  have hratio : (significand * 10 ^ exponent * unitsPerOne : ℚ) =
      (significand * Digits.weight exponent.toNat * unitsPerOne : ℕ) /
        (Digits.weight (-exponent).toNat : ℕ) := by
    rw [mul_assoc, ← weight_div_weight]
    push_cast
    ring
  have hden : 0 < Digits.weight (-exponent).toNat := Nat.pow_pos (by decide)
  have hnearest := nearest_eq hden hfinite (hratio ▸ h)
  have hone : Digits.weight 0 = 1 := rfl
  unfold ofDecimal
  rw [if_neg hsignificand, if_neg hlarge, if_neg hsmall]
  -- one of the two powers of ten is 1
  split
  · rename_i hexponent
    have hzero : (-exponent).toNat = 0 := Int.toNat_eq_zero.mpr (by omega)
    rw [hzero, hone] at hnearest
    exact ofRatio_eq hnearest
  · rename_i hexponent
    have hzero : exponent.toNat = 0 := Int.toNat_eq_zero.mpr (by omega)
    rw [hzero, hone, Nat.mul_one] at hnearest
    exact ofRatio_eq hnearest

end

end Binary64

/-! ## Numerals -/

namespace Layout

/-- A layout keeps the sign of digits. -/
theorem negative_ofScientific (layout : Layout) (negative : Bool) (s : Scientific) :
    (layout.ofScientific negative s).negative = negative := by
  unfold ofScientific plain
  split
  · split <;> rfl
  · rfl

/-- A finite number other than zero is what its numeral is rounded to, in any layout. -/
theorem nearest_numeral_of_ne_zero (layout : Layout) {x : Binary64} (hfinite : x.isFinite = true)
    (hzero : x.isZero = false) : (layout.numeral x).nearest = x := by
  have hordinal : 0 < x.ordinal := by
    rw [Binary64.isZero, beq_eq_false_iff_ne] at hzero
    exact Nat.pos_of_ne_zero hzero
  have hfinite' : x.ordinal < Binary64.infinityOrdinal := of_decide_eq_true hfinite
  obtain ⟨hdigits, hnear⟩ := Binary64.exists_shortest layout.tie hordinal
  rw [← layout.magnitude_ofScientific x.negative hdigits, Numeral.magnitude] at hnear
  rw [numeral, if_neg (Bool.not_eq_true _ ▸ hzero), Numeral.nearest, negative_ofScientific,
    Binary64.ofDecimal_eq hnear x.negative hordinal hfinite']
  rfl

/-- Every finite number equals what its numeral is rounded to. -/
theorem nearest_numeral (layout : Layout) {x : Binary64} (hfinite : x.isFinite = true) :
    (layout.numeral x).nearest.beq x = true := by
  have hnan {y : Binary64} (hy : y.ordinal ≤ Binary64.infinityOrdinal) : y.isNaN = false :=
    decide_eq_false (Nat.not_lt.mpr hy)
  have hfinite' : x.ordinal < Binary64.infinityOrdinal := of_decide_eq_true hfinite
  cases hzero : x.isZero with
  | false =>
    rw [layout.nearest_numeral_of_ne_zero hfinite hzero, Binary64.beq, hnan (Nat.le_of_lt hfinite')]
    simp
  | true =>
    -- zero may lose its sign, but not its value
    have hread : (layout.numeral x).nearest.ordinal = 0 := by
      rw [numeral, if_pos hzero]
      cases layout.wholeFraction <;> rfl
    rw [Binary64.beq, hnan (Nat.le_of_lt hfinite'), hnan (hread ▸ Nat.zero_le _), hzero,
      Binary64.isZero, hread]
    simp

end Layout

end TypeGraph
