import TypeGraph.Proofs.Number.Shortest
import TypeGraph.Proofs.Text.Literals

/-!
# The notation of numbers in source text

The text of a finite number other than zero is made from its shortest digits in one of four ways, by
the place of the point: behind all digits with zeros in between, between two digits, in front of all
digits with zeros in between, or, with a power of ten, behind the first digit. `Scientific.layOut?`
makes it so, and tests each count of zeros and each place to cut at before it is used. No test ever
fails, and the text is the one that is emitted.

Main results:

* `Literal.layOut?_eq`: the four ways are the layout of source text.
* `Numeral.point_followed`: behind a point there is a digit.
* `Literal.number_text_exact`: the text of a number has the value of its shortest digits, and the
  shape that their exponent asks for.
-/

namespace TypeGraph

open Numeral (fractionChars exponentChars)

/-! ## Text of numerals -/

namespace Digit

theorem char_ne {c : Char} (d : Digit) (h : c.isDigit = false) : d.char ≠ c := by
  intro hd
  rw [← hd, d.isDigit_char] at h
  cases h

theorem notMem_map_char {c : Char} (digits : List Digit) (h : c.isDigit = false) :
    c ∉ digits.map Digit.char := by
  intro hc
  obtain ⟨d, -, hd⟩ := List.mem_map.mp hc
  exact d.char_ne h hd

theorem char_eq_zero_iff (d : Digit) : d.char = '0' ↔ d = Digit.zero := by
  revert d
  decide

end Digit

namespace Numeral

/-- The value of a numeral. -/
def signedValue (n : Numeral) : ℚ := (if n.negative then -1 else 1) * n.magnitude

theorem fractionChars_of_ne_nil {fraction : List Digit} (h : fraction ≠ []) :
    fractionChars fraction = '.' :: fraction.map Digit.char := by
  rw [fractionChars, List.isEmpty_eq_false_iff.mpr h, if_neg Bool.false_ne_true]

theorem notMem_signChars {c : Char} (negative : Bool) (h : c ≠ '-') : c ∉ signChars negative := by
  cases negative with
  | false => exact List.not_mem_nil
  | true => exact fun hc => h (List.mem_singleton.mp hc)

theorem point_notMem_exponentChars (exponent : Option Int) : '.' ∉ exponentChars exponent := by
  cases exponent with
  | none => exact List.not_mem_nil
  | some e =>
    intro hc
    rcases List.mem_cons.mp hc with h | hc
    · exact absurd h (by decide)
    · rcases List.mem_cons.mp hc with h | hc
      · split at h <;> exact absurd h (by decide)
      · exact Digit.notMem_map_char _ (by decide) hc

/-- Behind a point there is a digit. -/
theorem point_followed (n : Numeral) {before after : List Char}
    (h : n.text.toList = before ++ '.' :: after) :
    ∃ (d : Digit) (more : List Char), after = d.char :: more := by
  have hfront : '.' ∉ signChars n.negative ++ n.whole.map Digit.char := by
    rw [List.mem_append, not_or]
    exact ⟨notMem_signChars _ (by decide), Digit.notMem_map_char _ (by decide)⟩
  have hback := point_notMem_exponentChars n.exponent
  rw [toList_text, unsignedChars, ← List.append_assoc] at h
  cases hfraction : n.fraction with
  | nil =>
    -- without a fraction there is no point
    have hpoint : '.' ∈ before ++ '.' :: after := List.mem_append_right _ (List.mem_cons_self ..)
    rw [← h, hfraction, fractionChars, if_pos List.isEmpty_nil, List.nil_append,
      List.mem_append] at hpoint
    exact absurd hpoint (not_or.mpr ⟨hfront, hback⟩)
  | cons d rest =>
    rw [hfraction] at h
    change _ ++ '.' :: (d.char :: rest.map Digit.char ++ exponentChars n.exponent) = _ at h
    have hsuffix : '.' ∉ d.char :: rest.map Digit.char ++ exponentChars n.exponent := by
      rw [List.mem_append, not_or]
      exact ⟨Digit.notMem_map_char (d :: rest) (by decide), hback⟩
    -- there is only one point, so this is it
    obtain ⟨-, -, hafter⟩ := (List.append_cons_inj_of_notMem hfront hsuffix).mp h
    exact ⟨d, _, hafter.symm⟩

/-- A power of ten is marked, and nothing else is marked so. -/
theorem mark_mem_text_iff (n : Numeral) : 'e' ∈ n.text.toList ↔ n.exponent ≠ none := by
  -- neither the sign nor the digits have the mark of the exponent
  have hfraction : 'e' ∉ fractionChars n.fraction := by
    unfold fractionChars
    split
    · exact List.not_mem_nil
    · intro hc
      rcases List.mem_cons.mp hc with h | hc
      · exact absurd h (by decide)
      · exact Digit.notMem_map_char _ (by decide) hc
  rw [toList_text, unsignedChars, List.mem_append, List.mem_append, List.mem_append,
    or_iff_right (notMem_signChars _ (by decide)),
    or_iff_right (Digit.notMem_map_char _ (by decide)), or_iff_right hfraction]
  cases n.exponent with
  | none => exact ⟨fun h => absurd h List.not_mem_nil, fun h => absurd rfl h⟩
  | some e => exact ⟨fun _ => Option.some_ne_none e, fun _ => List.mem_cons_self ..⟩

/-- The text is that of a numeral without a power of ten. -/
def IsPlainText (text : List Char) : Prop :=
  ∃ (negative : Bool) (whole fraction : List Digit), whole ≠ [] ∧
    text = signChars negative ++ (whole.map Digit.char ++ fractionChars fraction)

/-- A numeral is written without a power of ten if and only if it has none. -/
theorem isPlainText_text_iff {n : Numeral} (h : n.WellFormed) :
    IsPlainText n.text.toList ↔ n.exponent = none := by
  constructor
  · rintro ⟨negative, whole, fraction, hwhole, htext⟩
    -- the text is that of a numeral without a power of ten, where no mark of one is
    have hplain : n.text.toList = (⟨negative, whole, fraction, none⟩ : Numeral).text.toList := by
      rw [htext, toList_text, unsignedChars]
      exact congrArg _ (congrArg _ (List.append_nil _).symm)
    by_contra hexponent
    have hmark := (mark_mem_text_iff n).mpr hexponent
    rw [hplain, mark_mem_text_iff] at hmark
    exact hmark rfl
  · intro hexponent
    refine ⟨n.negative, n.whole, n.fraction, h.whole, ?_⟩
    rw [toList_text, unsignedChars, hexponent]
    exact congrArg _ (congrArg _ (List.append_nil _))

/-- The only zero in front is a single one before a point. -/
structure Tidy (n : Numeral) : Prop extends n.WellFormed where
  point : n.whole = [Digit.zero] → n.fraction ≠ []

/-- Behind a zero in front there is the point. -/
theorem Tidy.zero_followed {n : Numeral} (h : n.Tidy) {more : List Char}
    (htext : n.text.toList = signChars n.negative ++ '0' :: more) : ∃ rest, more = '.' :: rest := by
  obtain ⟨first, rest, hwhole⟩ := List.exists_cons_of_ne_nil h.whole
  rw [toList_text, unsignedChars, hwhole, List.append_cancel_left_eq, List.map_cons,
    List.cons_append] at htext
  obtain ⟨hfirst, hmore⟩ := List.cons.inj htext
  obtain rfl := first.char_eq_zero_iff.mp hfirst
  -- a zero in front is the whole part, so there is a fraction
  have hrest : rest = [] := by
    cases rest with
    | nil => rfl
    | cons second rest => exact absurd hwhole (h.leading second rest)
  subst hrest
  obtain ⟨d, fraction, hfraction⟩ := List.exists_cons_of_ne_nil (h.point hwhole)
  rw [hfraction] at hmore
  exact ⟨_, hmore.symm⟩

end Numeral

/-! ## The four ways -/

namespace Digits

/-- Zeros to fill places with; there is no negative number of them. -/
def zeros? (count : Int) : Option (List Digit) :=
  if 0 ≤ count then some (List.replicate count.toNat Digit.zero) else none

/-- Digits cut at a place, which is neither in front of the first one nor behind the last. -/
def cut? (digits : List Digit) (place : Int) : Option (List Digit × List Digit) :=
  if 0 ≤ place ∧ place ≤ digits.length then some (digits.splitAt place.toNat) else none

theorem zeros?_natCast (count : Nat) : zeros? count = some (List.replicate count Digit.zero) :=
  if_pos (Int.natCast_nonneg count)

theorem cut?_natCast {digits : List Digit} {place : Nat} (h : place ≤ digits.length) :
    cut? digits place = some (digits.take place, digits.drop place) := by
  rw [cut?, if_pos ⟨Int.natCast_nonneg place, Int.ofNat_le.mpr h⟩, List.splitAt_eq]
  rfl

end Digits

namespace Scientific

/-- The text of digits without a sign, by the place of the point. There is none if a count of zeros
were negative, or a place to cut at not among the digits. -/
def layOut? (s : Scientific) : Option (List Char) :=
  let count : Int := s.digits.length
  let point := s.exponent + 1
  if count ≤ point ∧ point ≤ 21 then
    (Digits.zeros? (point - count)).map fun zeros => (s.digits ++ zeros).map Digit.char
  else if 0 < point ∧ point ≤ 21 then
    (Digits.cut? s.digits point).map fun (whole, fraction) =>
      whole.map Digit.char ++ '.' :: fraction.map Digit.char
  else if -6 < point ∧ point ≤ 0 then
    (Digits.zeros? (-point)).map fun zeros => '0' :: '.' :: (zeros ++ s.digits).map Digit.char
  else
    (Digits.cut? s.digits 1).map fun (first, rest) =>
      first.map Digit.char ++ (fractionChars rest ++ exponentChars (some s.exponent))

/-- Whether the exponent is written by the place of the point, without a power of ten. -/
def IsPlain (s : Scientific) : Prop := -7 < s.exponent ∧ s.exponent < 21

instance (s : Scientific) : Decidable s.IsPlain := inferInstanceAs (Decidable (_ ∧ _))

variable {s : Scientific}

/-- The point behind all digits. -/
theorem layOut?_behind {places : Nat} (h : s.exponent = places) (hplaces : places ≤ 20)
    (hfill : s.digits.length ≤ places + 1) : s.layOut? =
      some ((s.digits ++ List.replicate (places + 1 - s.digits.length) Digit.zero).map
        Digit.char) := by
  have hcount : s.exponent + 1 - s.digits.length = (places + 1 - s.digits.length : ℕ) := by omega
  unfold layOut?
  rw [if_pos ⟨by omega, by omega⟩, hcount, Digits.zeros?_natCast, Option.map_some]

/-- The point between two digits. -/
theorem layOut?_between {places : Nat} (h : s.exponent = places) (hplaces : places ≤ 20)
    (hcut : places + 1 < s.digits.length) : s.layOut? =
      some ((s.digits.take (places + 1)).map Digit.char ++
        '.' :: (s.digits.drop (places + 1)).map Digit.char) := by
  have hplace : s.exponent + 1 = (places + 1 : ℕ) := by omega
  unfold layOut?
  rw [if_neg (by omega), if_pos ⟨by omega, by omega⟩, hplace, Digits.cut?_natCast (by omega),
    Option.map_some]

/-- The point in front of all digits. -/
theorem layOut?_front {zeros : Nat} (h : s.exponent = -(zeros + 1 : ℕ)) (hzeros : zeros ≤ 5)
    (hdigits : s.digits ≠ []) : s.layOut? =
      some ('0' :: '.' :: (List.replicate zeros Digit.zero ++ s.digits).map Digit.char) := by
  have hlength := List.length_pos_iff.mpr hdigits
  have hcount : -(s.exponent + 1) = (zeros : ℕ) := by omega
  unfold layOut?
  rw [if_neg (by omega), if_neg (by omega), if_pos ⟨by omega, by omega⟩, hcount,
    Digits.zeros?_natCast, Option.map_some]

/-- The point behind the first digit, and a power of ten. -/
theorem layOut?_power (h : ¬s.IsPlain) (hdigits : s.digits ≠ []) : s.layOut? =
    some ((s.digits.take 1).map Digit.char ++
      (fractionChars (s.digits.drop 1) ++ exponentChars (some s.exponent))) := by
  have hlength : 1 ≤ s.digits.length := List.length_pos_iff.mpr hdigits
  have hcut : Digits.cut? s.digits 1 = some (s.digits.take 1, s.digits.drop 1) :=
    Digits.cut?_natCast hlength
  unfold layOut?
  rw [if_neg, if_neg, if_neg, hcut, Option.map_some]
  -- each of the other three ways is for plain exponents
  all_goals
    rintro ⟨hlow, hhigh⟩
    exact h ⟨by omega, by omega⟩

end Scientific

/-! ## The layout of source text -/

namespace Literal

variable (negative : Bool) {s : Scientific}

theorem ofScientific_eq (s : Scientific) : numberLayout.ofScientific negative s =
    if s.IsPlain then numberLayout.plain negative s else Layout.scientific negative s := by
  have hrange : (decide (numberLayout.leastPlain ≤ s.exponent) &&
      decide (s.exponent ≤ numberLayout.greatestPlain)) = true ↔ s.IsPlain := by
    change (decide (-6 ≤ s.exponent) && decide (s.exponent ≤ 20)) = true ↔
      -7 < s.exponent ∧ s.exponent < 21
    rw [Bool.and_eq_true, decide_eq_true_iff, decide_eq_true_iff]
    omega
  exact if_congr hrange rfl rfl

theorem ofScientific_of_natCast {places : Nat} (h : s.exponent = places) (hplaces : places ≤ 20) :
    numberLayout.ofScientific negative s =
      ⟨negative, s.digits.take (places + 1) ++
        List.replicate (places + 1 - s.digits.length) Digit.zero,
        s.digits.drop (places + 1), none⟩ := by
  rw [ofScientific_eq, if_pos ⟨by omega, by omega⟩, Layout.plain, if_neg (by omega), h]
  simp only [Int.toNat_natCast, numberLayout, Bool.and_false, Bool.false_eq_true, if_false]

theorem ofScientific_of_neg {zeros : Nat} (h : s.exponent = -(zeros + 1 : ℕ)) (hzeros : zeros ≤ 5) :
    numberLayout.ofScientific negative s =
      ⟨negative, [Digit.zero], List.replicate zeros Digit.zero ++ s.digits, none⟩ := by
  rw [ofScientific_eq, if_pos ⟨by omega, by omega⟩, Layout.plain, if_pos (by omega), h, neg_neg,
    Int.toNat_natCast, Nat.add_sub_cancel]

/-- The exponent is nonnegative, negative, or outside the range that is written plainly. -/
theorem exponent_cases (s : Scientific) :
    (∃ places : ℕ, s.exponent = places ∧ places ≤ 20) ∨
      (∃ zeros : ℕ, s.exponent = -(zeros + 1 : ℕ) ∧ zeros ≤ 5) ∨ ¬s.IsPlain := by
  by_cases hplain : s.IsPlain
  · obtain ⟨hlow, hhigh⟩ := hplain
    rcases lt_or_ge s.exponent 0 with hneg | hnonneg
    · exact .inr (.inl ⟨(-s.exponent - 1).toNat, by omega, by omega⟩)
    · exact .inl ⟨s.exponent.toNat, by omega, by omega⟩
  · exact .inr (.inr hplain)

/-- A power of ten is written outside of the plain range. -/
theorem exponent_ofScientific (s : Scientific) :
    (numberLayout.ofScientific negative s).exponent = none ↔ s.IsPlain := by
  rcases exponent_cases s with ⟨places, h, hplaces⟩ | ⟨zeros, h, hzeros⟩ | hplain
  · rw [ofScientific_of_natCast negative h hplaces]
    exact iff_of_true rfl ⟨by omega, by omega⟩
  · rw [ofScientific_of_neg negative h hzeros]
    exact iff_of_true rfl ⟨by omega, by omega⟩
  · rw [ofScientific_eq, if_neg hplain]
    exact iff_of_false (Option.some_ne_none _) hplain

theorem tidy_ofScientific (h : s.Proper) : (numberLayout.ofScientific negative s).Tidy := by
  obtain ⟨first, rest, hdigits, hfirst⟩ := h.first
  refine ⟨numberLayout.wellFormed_ofScientific negative hdigits hfirst, ?_⟩
  -- only where the point is in front of all digits the whole part is zero
  rcases exponent_cases s with ⟨places, he, hplaces⟩ | ⟨zeros, he, hzeros⟩ | hplain
  · rw [ofScientific_of_natCast negative he hplaces, hdigits]
    exact fun hwhole => absurd (List.cons.inj hwhole).1 hfirst
  · rw [ofScientific_of_neg negative he hzeros, hdigits]
    exact fun _ => List.append_ne_nil_of_right_ne_nil _ (List.cons_ne_nil _ _)
  · rw [ofScientific_eq, if_neg hplain, Layout.scientific, hdigits]
    exact fun hwhole => absurd (List.cons.inj hwhole).1 hfirst

/-- All counts and places are in range, and the four ways are the layout. -/
theorem layOut?_eq (h : s.digits ≠ []) :
    s.layOut? = some (numberLayout.ofScientific negative s).unsignedChars := by
  -- the three notations: a point among or behind the digits, zeros in front, or a power of ten
  rcases exponent_cases s with ⟨places, he, hplaces⟩ | ⟨zeros, he, hzeros⟩ | hplain
  · rw [ofScientific_of_natCast negative he hplaces]
    rcases Nat.lt_or_ge (places + 1) s.digits.length with hcut | hfill
    · have hzeros : places + 1 - s.digits.length = 0 := by omega
      have hfraction : s.digits.drop (places + 1) ≠ [] := by
        rw [ne_eq, List.drop_eq_nil_iff]
        omega
      rw [Scientific.layOut?_between he hplaces hcut, hzeros, List.replicate_zero, List.append_nil,
        Numeral.unsignedChars, Numeral.fractionChars_of_ne_nil hfraction, exponentChars,
        List.append_nil]
    · rw [Scientific.layOut?_behind he hplaces hfill, List.take_of_length_le hfill,
        List.drop_eq_nil_of_le hfill, Numeral.unsignedChars, exponentChars, List.append_nil]
      exact congrArg some (List.append_nil _).symm
  · have hfraction : List.replicate zeros Digit.zero ++ s.digits ≠ [] :=
      List.append_ne_nil_of_right_ne_nil _ h
    rw [Scientific.layOut?_front he hzeros h, ofScientific_of_neg negative he hzeros,
      Numeral.unsignedChars, Numeral.fractionChars_of_ne_nil hfraction, exponentChars,
      List.append_nil]
    rfl
  · rw [Scientific.layOut?_power hplain h, ofScientific_eq, if_neg hplain]
    rfl

example :
    Scientific.layOut? ⟨[1, 2, 3, 4, 5, 6], 2⟩ =
      some ['1', '2', '3', '.', '4', '5', '6'] := by decide

end Literal

/-! ## Texts that are exact -/

/-- How digits with an exponent and a sign are written. -/
structure WritesExactly (negative : Bool) (s : Scientific) (text : List Char) : Prop where
  /-- The text is a numeral, and its value is exactly that of the digits. -/
  exact : ∃ n, Numeral.ofChars? text = some n ∧
    n.signedValue = (if negative then -1 else 1) *
      (Digits.toNat s.digits * 10 ^ (s.exponent - s.digits.length + 1))
  /-- A range of exponents, and no other, goes without a power of ten. -/
  plain : Numeral.IsPlainText text ↔ s.IsPlain
  /-- Else the point is behind the first digit, and the power of ten has its sign and no zero in
  front. -/
  power : ¬s.IsPlain →
    (∃ first rest, s.digits = first :: rest ∧ text = Numeral.signChars negative ++
      (first.char :: (if rest = [] then [] else '.' :: rest.map Digit.char) ++
        'e' :: (if s.exponent < 0 then '-' else '+') ::
          (Digits.ofNat s.exponent.natAbs).map Digit.char)) ∧
      (Digits.ofNat s.exponent.natAbs).head? ≠ some Digit.zero
  /-- Behind a point there is a digit. -/
  point : ∀ before after, text = before ++ '.' :: after →
      ∃ (d : Digit) (more : List Char), after = d.char :: more
  /-- Behind a zero in front there is the point. -/
  leading : ∀ more, text = Numeral.signChars negative ++ '0' :: more → ∃ rest, more = '.' :: rest
  /-- Made in one of the four ways, the text takes no count of zeros and no place to cut at out of
  range. -/
  inRange : ∃ body, s.layOut? = some body ∧ text = Numeral.signChars negative ++ body

namespace Scientific

/-- Digits without zeros at their ends are written exactly, whatever their number and their
exponent. -/
theorem Proper.writesExactly {s : Scientific} (h : s.Proper) (negative : Bool) :
    WritesExactly negative s (Literal.numberLayout.ofScientific negative s).text.toList := by
  obtain ⟨first, rest, hdigits, hfirst⟩ := h.first
  have htidy := Literal.tidy_ofScientific negative h
  have hnegative := Literal.numberLayout.negative_ofScientific negative s
  have hdigits' : s.digits ≠ [] := hdigits ▸ List.cons_ne_nil _ _
  constructor
  · -- the text is read as the numeral, which has the value in any layout
    refine ⟨_, Numeral.ofChars?_text htidy.toWellFormed, ?_⟩
    rw [Numeral.signedValue, hnegative,
      Literal.numberLayout.magnitude_ofScientific negative hdigits']
    rfl
  · rw [Numeral.isPlainText_text_iff htidy.toWellFormed, Literal.exponent_ofScientific]
  · intro hpower
    refine ⟨⟨first, rest, hdigits, ?_⟩, Digits.head_ofNat ?_⟩
    · rw [Literal.ofScientific_eq, if_neg hpower, Numeral.toList_text, Layout.scientific, hdigits]
      cases rest <;> rfl
    · -- the exponent zero is written plainly
      by_contra hzero
      exact hpower ⟨by omega, by omega⟩
  · exact fun _ _ => Numeral.point_followed _
  · intro more hmore
    exact htidy.zero_followed (by rwa [hnegative])
  · refine ⟨_, Literal.layOut?_eq negative hdigits', ?_⟩
    rw [Numeral.toList_text, hnegative]

end Scientific

namespace Literal

/-- The text of a finite number other than zero is that of its shortest digits, written exactly. -/
theorem number_text_exact {x : Binary64} (hfinite : x.isFinite = true) (hzero : x.isZero = false) :
    (x.shortest numberLayout.tie).Proper ∧ (x.shortest numberLayout.tie).digits.length ≤ 17 ∧
      (-324 ≤ (x.shortest numberLayout.tie).exponent ∧
        (x.shortest numberLayout.tie).exponent ≤ 308) ∧
      WritesExactly x.negative (x.shortest numberLayout.tie) (number x).text.toList := by
  have hordinal : 0 < x.ordinal := by
    rw [Binary64.isZero, beq_eq_false_iff_ne] at hzero
    exact Nat.pos_of_ne_zero hzero
  have hproper := Binary64.proper_shortest numberLayout.tie hordinal
  have htext : (number x).text =
      (numberLayout.ofScientific x.negative (x.shortest numberLayout.tie)).text := by
    rw [text, numberText_of_isFinite hfinite, Layout.numeral, if_neg (Bool.not_eq_true _ ▸ hzero)]
  refine ⟨hproper, x.length_shortest_le numberLayout.tie, ?_, ?_⟩
  · exact Binary64.exponent_shortest numberLayout.tie hordinal hfinite
  · rw [htext]
    exact hproper.writesExactly x.negative

/-- One that is written with a power of ten: `-2.5e+30`. -/
theorem number_text_exact_power :
    let x := Binary64.ofOrdinal true 0x463f8def8808b024 (by decide)
    x.isFinite = true ∧ x.isZero = false ∧
      WritesExactly x.negative (x.shortest numberLayout.tie) (number x).text.toList := by
  intro x
  have hfinite : x.isFinite = true := by decide
  have hzero : x.isZero = false := by decide
  exact ⟨hfinite, hzero, (number_text_exact hfinite hzero).2.2.2⟩

end Literal

end TypeGraph
