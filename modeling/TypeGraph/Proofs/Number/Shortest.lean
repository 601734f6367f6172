import TypeGraph.Proofs.Number.Written

/-!
# The shape of shortest digits

Shortest digits start and end with a digit other than zero, there are at most seventeen of them, and
their exponent is one of the format: `5e-324` is the least positive number, and all finite ones are
below `1e309`.

Main results:

* `Binary64.proper_shortest`: shortest digits have no zero at either end.
* `Binary64.length_shortest_le`: there are at most seventeen.
* `Binary64.exponent_shortest`: the range of the exponent.
-/

namespace TypeGraph

/-! ## Digits -/

namespace Digits

theorem toNat_cons (first : Digit) (rest : List Digit) :
    toNat (first :: rest) = first.val * 10 ^ rest.length + toNat rest := by
  have happend := toNat_append [first] rest
  have hsingle : toNat [first] = first.val := Nat.zero_add _
  rwa [hsingle] at happend

theorem toNat_lt (digits : List Digit) : toNat digits < 10 ^ digits.length := by
  induction digits with
  | nil => decide
  | cons first rest ih =>
    have hfirst : first.val * 10 ^ rest.length ≤ 9 * 10 ^ rest.length :=
      Nat.mul_le_mul_right _ (Nat.lt_succ_iff.mp first.isLt)
    rw [toNat_cons, List.length_cons, Nat.pow_succ]
    omega

theorem pow_le_toNat {first : Digit} (rest : List Digit) (h : first ≠ Digit.zero) :
    10 ^ rest.length ≤ toNat (first :: rest) := by
  have hfirst : 0 < first.val := Nat.pos_of_ne_zero fun hzero => h (Fin.ext hzero)
  rw [toNat_cons]
  exact Nat.le_add_right_of_le (Nat.le_mul_of_pos_left _ hfirst)

theorem lt_pow_length_ofNat (n : Nat) : n < 10 ^ (ofNat n).length := by
  have hlt := toNat_lt (ofNat n)
  rwa [toNat_ofNat] at hlt

theorem length_ofNat_le {n count : Nat} (hcount : 0 < count) (h : n < 10 ^ count) :
    (ofNat n).length ≤ count := by
  rcases Nat.eq_zero_or_pos n with rfl | hn
  · rw [ofNat, dif_pos (by decide)]
    exact hcount
  · have hpow := (pow_length_ofNat_le hn).trans_lt h
    have hlt := (Nat.pow_lt_pow_iff_right (by decide)).mp hpow
    omega

/-! ### Zeros at the end -/

theorem trimRight_append_zero (digits : List Digit) :
    trimRight (digits ++ [Digit.zero]) = trimRight digits := by
  rw [trimRight, List.reverse_append]
  rfl

theorem length_trimRight_le (digits : List Digit) : (trimRight digits).length ≤ digits.length := by
  obtain ⟨count, hdigits⟩ := exists_trimRight digits
  have hlength := congrArg List.length hdigits
  rw [List.length_append] at hlength
  omega

/-- No zero is left at the end. -/
theorem getLast?_trimRight (digits : List Digit) :
    (trimRight digits).getLast? ≠ some Digit.zero := by
  rw [trimRight, List.getLast?_reverse]
  intro hlast
  -- what is left of the reverse starts with a digit that was not dropped
  have hzero := List.head?_dropWhile_not (· == Digit.zero) digits.reverse
  rw [hlast] at hzero
  exact absurd hzero (by decide)

/-- Of a power of ten, one digit is left. -/
theorem trimRight_ofNat_pow (count : Nat) : trimRight (ofNat (10 ^ count)) = [1] := by
  induction count with
  | zero =>
    rw [ofNat, dif_pos (by decide)]
    rfl
  | succ count ih =>
    have hpos : 0 < 10 ^ count := Nat.pow_pos (by decide)
    have hdigits : ofNat (10 ^ (count + 1)) = ofNat (10 ^ count) ++ [Digit.zero] := by
      rw [ofNat, dif_neg (by omega), Nat.pow_succ, Nat.mul_div_cancel _ (by decide)]
      congr 2
      exact Fin.ext (Nat.mul_mod_left _ _)
    rw [hdigits, trimRight_append_zero, ih]

theorem length_trimRight_ofNat_le {n count : Nat} (hcount : 0 < count) (h : n ≤ 10 ^ count) :
    (trimRight (ofNat n)).length ≤ count := by
  rcases Nat.lt_or_eq_of_le h with hlt | rfl
  · exact (length_trimRight_le _).trans (length_ofNat_le hcount hlt)
  · rw [trimRight_ofNat_pow]
    exact hcount

end Digits

/-! ## Digits with an exponent -/

namespace Scientific

/-- The first digit is not zero, and neither is the last. -/
structure Proper (s : Scientific) : Prop where
  first : ∃ first rest, s.digits = first :: rest ∧ first ≠ Digit.zero
  last : s.digits.getLast? ≠ some Digit.zero

variable {s : Scientific} (h : s.Proper)

include h

/-- The exponent is the place of the first digit. -/
theorem Proper.pow_le_magnitude : (10 ^ s.exponent : ℚ) ≤ s.magnitude := by
  obtain ⟨first, rest, hdigits, hfirst⟩ := h.first
  have hle : (10 ^ rest.length : ℚ) ≤ Digits.toNat s.digits := by
    rw [hdigits]
    exact_mod_cast Digits.pow_le_toNat rest hfirst
  calc (10 ^ s.exponent : ℚ)
    _ = 10 ^ (rest.length : ℤ) * 10 ^ (s.exponent - s.digits.length + 1) := by
        rw [← zpow_add₀ (by norm_num), hdigits, List.length_cons]
        congr 1
        push_cast
        omega
    _ ≤ s.magnitude := by
        rw [zpow_natCast]
        exact mul_le_mul_of_nonneg_right hle (zpow_nonneg (by norm_num) _)

omit h in
theorem magnitude_lt_pow (s : Scientific) : s.magnitude < 10 ^ (s.exponent + 1) := by
  have hlt : (Digits.toNat s.digits : ℚ) < 10 ^ s.digits.length := by
    exact_mod_cast Digits.toNat_lt s.digits
  calc s.magnitude < 10 ^ (s.digits.length : ℤ) * 10 ^ (s.exponent - s.digits.length + 1) := by
        rw [zpow_natCast]
        exact mul_lt_mul_of_pos_right hlt (zpow_pos (by norm_num) _)
    _ = 10 ^ (s.exponent + 1) := by
        rw [← zpow_add₀ (by norm_num)]
        congr 1
        omega

end Scientific

/-! ## Shortest digits -/

namespace Binary64

theorem two_unitsPerOne_le : 2 * unitsPerOne ≤ Digits.weight 324 := by decide +kernel

/-- A magnitude is below the power of ten after the one that is found for it. -/
theorem unitsAt_lt_pow (ordinal : Nat) :
    (unitsAt ordinal : ℚ) < 10 ^ (decimalExponent ordinal + 1) * unitsPerOne := by
  have hdigits := Digits.lt_pow_length_ofNat (unitsAt ordinal * Digits.weight 400 / unitsPerOne)
  rw [decimalExponent]
  generalize (Digits.ofNat (unitsAt ordinal * Digits.weight 400 / unitsPerOne)).length = length at *
  have hlt := (Nat.div_lt_iff_lt_mul unitsPerOne_pos).mp hdigits
  have hexponent : (length : ℤ) - 401 + 1 = length - 400 := by omega
  rw [zpow_eq_div_weight hexponent, div_mul_eq_mul_div, lt_div_iff₀ cast_weight_pos]
  exact_mod_cast hlt

/-- A multiple that is found with a count of digits has no more digits. -/
theorem le_pow_of_nearestReading {tie : Tie} {ordinal count multiple : Nat} {place : ℤ}
    (hplace : decimalExponent ordinal - count + 1 = place)
    (h : nearestReading tie ordinal (Digits.weight place.toNat * unitsPerOne)
      (Digits.weight (-place).toNat) = some multiple) : multiple ≤ 10 ^ count := by
  have hnum : 0 < Digits.weight place.toNat * unitsPerOne :=
    Nat.mul_pos (Nat.pow_pos (by decide)) unitsPerOne_pos
  have hden : 0 < Digits.weight (-place).toNat := Nat.pow_pos (by decide)
  have hratio := weight_div_weight place
  obtain ⟨-, hle⟩ := of_nearestReading h
  generalize Digits.weight place.toNat * unitsPerOne = num at *
  generalize Digits.weight (-place).toNat = den at *
  refine hle.trans (Nat.succ_le_of_lt ?_)
  rw [Nat.div_lt_iff_lt_mul hnum]
  -- a power of ten with that many digits is beyond the magnitude
  have hnum' : (0 : ℚ) < num := by exact_mod_cast hnum
  have hden' : (0 : ℚ) < den := by exact_mod_cast hden
  have hlt : (unitsAt ordinal : ℚ) < 10 ^ count * (num / den) := by
    calc (unitsAt ordinal : ℚ)
      _ < 10 ^ (decimalExponent ordinal + 1) * unitsPerOne := unitsAt_lt_pow ordinal
      _ = 10 ^ count * (10 ^ place * unitsPerOne) := by
          rw [← mul_assoc, ← zpow_natCast, ← zpow_add₀ (by norm_num)]
          congr 2
          omega
      _ = 10 ^ count * (num / den) := by rw [hratio]
  rw [← mul_div_assoc, lt_div_iff₀ hden'] at hlt
  exact_mod_cast hlt

theorem length_shortestFrom_le (tie : Tie) (ordinal : Nat) {tries count : Nat} (hpos : 0 < count)
    (hcount : count + tries ≤ 18) :
    (shortestFrom tie ordinal (decimalExponent ordinal) count tries).digits.length ≤ 17 := by
  -- induction on the tries: each one that fails allows one digit more to the next
  induction tries generalizing count with
  | zero =>
    rw [shortestFrom]
    decide
  | succ tries ih =>
    rw [shortestFrom]
    simp only []
    split
    · rename_i multiple hmultiple
      have hlength := Digits.length_trimRight_ofNat_le hpos (le_pow_of_nearestReading rfl hmultiple)
      exact hlength.trans (by omega)
    · exact ih (Nat.succ_pos count) (by omega)

/-- Shortest digits are at most seventeen. -/
theorem length_shortest_le (tie : Tie) (x : Binary64) : (x.shortest tie).digits.length ≤ 17 :=
  length_shortestFrom_le tie x.ordinal Nat.one_pos (Nat.le_refl _)

section

variable (tie : Tie) {x : Binary64} (hzero : 0 < x.ordinal)

include hzero

/-- Shortest digits have no zero at either end. -/
theorem proper_shortest : (x.shortest tie).Proper where
  first := shortest_eq_cons tie hzero
  last := by
    obtain ⟨multiple, place, -, hshortest⟩ := exists_shortestFrom tie hzero (Nat.succ_pos 16) rfl
    rw [shortest, hshortest]
    exact Digits.getLast?_trimRight _

/-- The exponent of shortest digits is in the range of the format. -/
theorem exponent_shortest (hfinite : x.isFinite = true) :
    -324 ≤ (x.shortest tie).exponent ∧ (x.shortest tie).exponent ≤ 308 := by
  have hproper := proper_shortest tie hzero
  have hnear := (exists_shortest tie hzero).2
  have hunits : (0 : ℚ) < unitsPerOne := by exact_mod_cast unitsPerOne_pos
  generalize x.shortest tie = s at *
  constructor
  · -- below, not even half a unit is left
    by_contra hsmall
    have hhalf : (2 * unitsPerOne : ℚ) ≤ 10 ^ (324 : ℤ) := by
      have hle : (2 * unitsPerOne : ℚ) ≤ (Digits.weight 324 : ℕ) := by
        exact_mod_cast two_unitsPerOne_le
      rwa [Digits.cast_weight] at hle
    have hinverse : (10 : ℚ) ^ (-324 : ℤ) * 10 ^ (324 : ℤ) = 1 := by
      rw [← zpow_add₀ (by norm_num)]
      exact zpow_zero 10
    have hpow : (10 : ℚ) ^ (s.exponent + 1) ≤ 10 ^ (-324 : ℤ) :=
      zpow_le_zpow_right₀ (by norm_num) (by omega)
    have hlt : 2 * (s.magnitude * unitsPerOne) < 1 := by
      calc 2 * (s.magnitude * unitsPerOne) = s.magnitude * (2 * unitsPerOne) := by ring
        _ < 10 ^ (-324 : ℤ) * (2 * unitsPerOne) :=
            mul_lt_mul_of_pos_right (s.magnitude_lt_pow.trans_le hpow) (mul_pos two_pos hunits)
        _ ≤ 10 ^ (-324 : ℤ) * 10 ^ (324 : ℤ) :=
            mul_le_mul_of_nonneg_left hhalf (zpow_nonneg (by norm_num) _)
        _ = 1 := hinverse
    exact absurd (hnear.pos hzero) (not_le.mpr hlt)
  · -- above, the number would not be finite
    have hlt := hnear.lt_pow (of_decide_eq_true hfinite)
    have hpow := hproper.pow_le_magnitude.trans_lt (lt_of_mul_lt_mul_right hlt hunits.le)
    have hexponent := (zpow_lt_zpow_iff_right₀ (by norm_num)).mp hpow
    omega

end

end Binary64

end TypeGraph
