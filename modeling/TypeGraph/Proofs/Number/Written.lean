import TypeGraph.Number.Integer
import TypeGraph.Number.Reading
import TypeGraph.Proofs.Number.ReadBack

/-!
# Numbers are read as they are written

The text of a numeral is read as the numeral, so long as its digits before the point have no leading
zeros; those that a layout writes have none. The text of an integer is read as the integer.

Main results:

* `Numeral.ofChars?_text`: a numeral is read from its text.
* `Layout.wellFormed_numeral`: layouts write numerals that can be read.
* `Integer.parse?_text`: an integer is read from its text.
-/

namespace TypeGraph

/-! ## Digits -/

theorem Digit.ofChar?_char (d : Digit) : Digit.ofChar? d.char = some d := by
  revert d
  decide

theorem Digit.char_ne_minus (d : Digit) : d.char ≠ '-' := by
  revert d
  decide

/-- No digit starts the text. -/
def NoDigit (text : List Char) : Prop := ∀ c ∈ text.head?, Digit.ofChar? c = none

namespace Digits

theorem span_of_noDigit {rest : List Char} (h : NoDigit rest) : span rest = ([], rest) := by
  cases rest with
  | nil => rfl
  | cons c rest => rw [span, h c rfl]

/-- Digits are read up to where no digit follows. -/
theorem span_append (digits : List Digit) {rest : List Char} (h : NoDigit rest) :
    span (digits.map Digit.char ++ rest) = (digits, rest) := by
  induction digits with
  | nil => exact span_of_noDigit h
  | cons d digits ih =>
    rw [List.map_cons, List.cons_append, span, Digit.ofChar?_char, ih]

theorem span_map_char (digits : List Digit) : span (digits.map Digit.char) = (digits, []) := by
  have hnil : NoDigit [] := fun _ h => absurd h (Option.not_mem_none _)
  have hspan := span_append digits hnil
  rwa [List.append_nil] at hspan

theorem toList_text (digits : List Digit) : (text digits).toList = digits.map Digit.char :=
  String.toList_ofList

theorem ofText?_text (digits : List Digit) : ofText? (text digits) = some digits := by
  rw [ofText?, toList_text]
  induction digits with
  | nil => rfl
  | cons d digits ih =>
    rw [List.map_cons, List.mapM_cons, Digit.ofChar?_char, ih]
    rfl

theorem ofNat_ne_nil (n : Nat) : ofNat n ≠ [] := List.ne_nil_of_length_pos (length_ofNat_pos n)

/-- A positive number is written without a zero in front. -/
theorem head_ofNat {n : Nat} (h : 0 < n) : (ofNat n).head? ≠ some Digit.zero := by
  induction n using ofNat.induct with
  | case1 n hn =>
    rw [ofNat, dif_pos hn]
    intro hhead
    have hvalue := congrArg Fin.val (Option.some.inj hhead)
    exact absurd hvalue (Nat.ne_of_gt h)
  | case2 n hn ih =>
    -- the first digit is that of the tens, which are positive as well
    rw [ofNat, dif_neg hn, List.head?_append_of_ne_nil _ (ofNat_ne_nil _)]
    exact ih (by omega)

theorem head_trimRight {digits : List Digit} {first : Digit}
    (h : (trimRight digits).head? = some first) : digits.head? = some first := by
  obtain ⟨count, hdigits⟩ := exists_trimRight digits
  rw [hdigits, List.head?_append, h]
  rfl

end Digits

/-! ## Integers -/

namespace Integer

theorem ofParts?_text (negative : Bool) {digits : List Digit} (h : digits ≠ []) :
    ofParts? negative (Digits.text digits) =
      some (if negative then -(Digits.toNat digits : Int) else Digits.toNat digits) := by
  rw [ofParts?, Digits.ofText?_text]
  cases digits with
  | nil => exact absurd rfl h
  | cons d rest => rfl

/-- An integer is read from its text. -/
theorem parse?_text (n : Int) : parse? (text n) = some n := by
  have hdigits := Digits.ofNat_ne_nil n.natAbs
  by_cases hn : n < 0
  · have htext : (text n).toList = '-' :: (Digits.ofNat n.natAbs).map Digit.char := by
      rw [text, if_pos hn, String.toList_append, magnitude, Digits.toList_text]
      rfl
    rw [parse?, htext]
    refine (ofParts?_text true hdigits).trans ?_
    rw [if_pos rfl, Digits.toNat_ofNat]
    congr 1
    omega
  · have htext : text n = Digits.text (Digits.ofNat n.natAbs) := by
      rw [text, if_neg hn, String.empty_append, magnitude]
    rw [parse?]
    split
    · -- the first character is a digit
      rename_i rest hminus
      rw [htext, Digits.toList_text] at hminus
      obtain ⟨d, digits, hcons⟩ := List.exists_cons_of_ne_nil hdigits
      rw [hcons] at hminus
      exact absurd (List.cons.inj hminus).1 d.char_ne_minus
    · rw [htext, ofParts?_text false hdigits, if_neg Bool.false_ne_true, Digits.toNat_ofNat]
      congr 1
      omega

end Integer

/-! ## Numerals -/

namespace Numeral

/-- There are digits before the point, without leading zeros. -/
structure WellFormed (n : Numeral) : Prop where
  whole : n.whole ≠ []
  leading : ∀ second rest, n.whole ≠ Digit.zero :: second :: rest

theorem WellFormed.of_single {n : Numeral} {digit : Digit} (h : n.whole = [digit]) :
    n.WellFormed where
  whole := h ▸ List.cons_ne_nil _ _
  leading _ _ hwhole := absurd (List.cons.inj (h.symm.trans hwhole)).2.symm (List.cons_ne_nil _ _)

theorem WellFormed.of_cons {n : Numeral} {first : Digit} {rest : List Digit}
    (h : n.whole = first :: rest) (hfirst : first ≠ Digit.zero) : n.WellFormed where
  whole := h ▸ List.cons_ne_nil _ _
  leading _ _ hwhole := hfirst (List.cons.inj (h.symm.trans hwhole)).1

/-- The power of ten at the end of the text. -/
def exponentChars : Option Int → List Char
  | none => []
  | some e => 'e' :: (if e < 0 then '-' else '+') :: (Digits.ofNat e.natAbs).map Digit.char

/-- The point and the digits behind it. -/
def fractionChars (fraction : List Digit) : List Char :=
  if fraction.isEmpty then [] else '.' :: fraction.map Digit.char

/-- The sign in front of the text. -/
def signChars (negative : Bool) : List Char := if negative then ['-'] else []

/-- The text behind the sign. -/
def unsignedChars (n : Numeral) : List Char :=
  n.whole.map Digit.char ++ (fractionChars n.fraction ++ exponentChars n.exponent)

theorem toList_text (n : Numeral) : n.text.toList = signChars n.negative ++ n.unsignedChars := by
  have hsign : (if n.negative then "-" else "").toList = signChars n.negative := by
    cases n.negative <;> rfl
  have hfraction : (if n.fraction.isEmpty then "" else "." ++ Digits.text n.fraction).toList =
      fractionChars n.fraction := by
    unfold fractionChars
    cases n.fraction.isEmpty with
    | true => rfl
    | false => rw [if_neg Bool.false_ne_true, String.toList_append, Digits.toList_text]; rfl
  rw [text, String.toList_append, String.toList_append, String.toList_append, hsign, hfraction,
    Digits.toList_text, List.append_assoc, List.append_assoc, unsignedChars]
  congr 3
  cases n.exponent with
  | none => rfl
  | some e =>
    rw [exponentChars, String.toList_append, Digits.toList_text]
    split <;> rfl

theorem exponent?_signed (negative : Bool) {digits : List Digit} (h : digits ≠ []) :
    exponent? ('e' :: (if negative then '-' else '+') :: digits.map Digit.char) =
      some (some (if negative then -(Digits.toNat digits : Int) else Digits.toNat digits)) := by
  obtain ⟨d, rest, rfl⟩ := List.exists_cons_of_ne_nil h
  have hspan := Digits.span_map_char (d :: rest)
  cases negative with
  | false => simp [exponent?, hspan, -List.map_cons]
  | true => simp [exponent?, spanSign, hspan, -List.map_cons]

theorem exponent?_exponentChars (exponent : Option Int) :
    exponent? (exponentChars exponent) = some exponent := by
  cases exponent with
  | none => rfl
  | some e =>
    have hsigned := exponent?_signed (decide (e < 0)) (Digits.ofNat_ne_nil e.natAbs)
    simp only [decide_eq_true_eq, Digits.toNat_ofNat] at hsigned
    rw [exponentChars, hsigned]
    congr 2
    split <;> omega

theorem noDigit_exponentChars (exponent : Option Int) : NoDigit (exponentChars exponent) := by
  cases exponent with
  | none => exact fun _ h => absurd h (Option.not_mem_none _)
  | some e =>
    intro c hc
    cases hc
    rfl

theorem noDigit_fractionChars (fraction : List Digit) (exponent : Option Int) :
    NoDigit (fractionChars fraction ++ exponentChars exponent) := by
  unfold fractionChars
  split
  · exact noDigit_exponentChars exponent
  · intro c hc
    cases hc
    rfl

theorem noPoint_exponentChars (exponent : Option Int) (rest : List Char) :
    exponentChars exponent ≠ '.' :: rest := by
  cases exponent with
  | none => exact (List.cons_ne_nil _ _).symm
  | some e => exact fun h => absurd (List.cons.inj h).1 (by decide)

/-- What follows the sign is read. -/
theorem ofChars?_unsigned {n : Numeral} (h : n.WellFormed) {text : List Char}
    (htext : spanSign text = (n.negative, n.unsignedChars)) : ofChars? text = some n := by
  obtain ⟨negative, whole, fraction, exponent⟩ := n
  rw [ofChars?, htext]
  dsimp only [unsignedChars]
  rw [Digits.span_append _ (noDigit_fractionChars fraction exponent)]
  split
  · -- no digits before the point
    rename_i heq
    exact absurd (Prod.mk.inj heq).1 h.whole
  · -- a leading zero
    rename_i heq
    exact absurd (Prod.mk.inj heq).1 (h.leading _ _)
  · rename_i heq
    obtain ⟨rfl, hrest⟩ := Prod.mk.inj heq
    cases fraction with
    | nil => exact absurd hrest (noPoint_exponentChars exponent _)
    | cons first more =>
      -- a point: the digits behind it are read up to the power of ten
      obtain rfl := (List.cons.inj hrest).2
      rw [List.append_eq, Digits.span_append (first :: more) (noDigit_exponentChars exponent)]
      dsimp only
      rw [exponent?_exponentChars]
      rfl
  · -- no point: the power of ten follows, or nothing
    rename_i hnoPoint heq
    obtain ⟨rfl, rfl⟩ := Prod.mk.inj heq
    cases fraction with
    | nil =>
      rw [fractionChars, if_pos List.isEmpty_nil, List.nil_append, exponent?_exponentChars]
      rfl
    | cons first more => exact (hnoPoint _ rfl).elim

/-- A numeral is read from its text. -/
theorem ofChars?_text {n : Numeral} (h : n.WellFormed) : ofChars? n.text.toList = some n := by
  refine ofChars?_unsigned h ?_
  rw [toList_text]
  cases n.negative with
  | true => rfl
  | false =>
    obtain ⟨d, digits, hwhole⟩ := List.exists_cons_of_ne_nil h.whole
    rw [unsignedChars, hwhole]
    change spanSign (d.char :: _) = _
    unfold spanSign
    split
    · rename_i heq
      exact absurd (List.cons.inj heq).1 d.char_ne_minus
    · rfl

end Numeral

/-! ## What layouts write -/

theorem Binary64.shortest_eq_cons (tie : Tie) {x : Binary64} (hzero : 0 < x.ordinal) :
    ∃ first rest, (x.shortest tie).digits = first :: rest ∧ first ≠ Digit.zero := by
  obtain ⟨first, rest, hdigits⟩ := List.exists_cons_of_ne_nil (exists_shortest tie hzero).1
  refine ⟨first, rest, hdigits, ?_⟩
  rintro rfl
  -- the digits are those of a multiple of a power of ten, zeros at the end left out
  obtain ⟨multiple, place, hnear, hshortest⟩ := exists_shortestFrom tie hzero (Nat.succ_pos 16) rfl
  have hpositive : 0 < multiple := by
    refine Nat.pos_of_ne_zero ?_
    rintro rfl
    have hpos := hnear.pos hzero
    norm_num at hpos
  have hhead : (Digits.trimRight (Digits.ofNat multiple)).head? = some Digit.zero := by
    rw [shortest, hshortest] at hdigits
    exact congrArg List.head? hdigits
  exact Digits.head_ofNat hpositive (Digits.head_trimRight hhead)

namespace Layout

theorem wellFormed_ofScientific (layout : Layout) (negative : Bool) {s : Scientific} {first : Digit}
    {rest : List Digit} (hdigits : s.digits = first :: rest) (hfirst : first ≠ Digit.zero) :
    (layout.ofScientific negative s).WellFormed := by
  unfold ofScientific plain scientific
  split
  · split
    · exact .of_single rfl
    · have hwhole : s.digits.take (s.exponent.toNat + 1) ++
            List.replicate (s.exponent.toNat + 1 - s.digits.length) Digit.zero =
          first :: (rest.take s.exponent.toNat ++
            List.replicate (s.exponent.toNat + 1 - s.digits.length) Digit.zero) := by
        simp only [hdigits, List.take_succ_cons, List.cons_append]
      exact .of_cons hwhole hfirst
  · have hwhole : s.digits.take 1 = [first] := by
      simp only [hdigits, List.take_succ_cons, List.take_zero]
    exact .of_single hwhole

/-- Layouts write numerals that can be read. -/
theorem wellFormed_numeral (layout : Layout) (x : Binary64) : (layout.numeral x).WellFormed := by
  unfold numeral
  split
  · exact .of_single rfl
  · rename_i hzero
    rw [Binary64.isZero, beq_iff_eq] at hzero
    obtain ⟨first, rest, hdigits, hfirst⟩ :=
      Binary64.shortest_eq_cons layout.tie (Nat.pos_of_ne_zero hzero)
    exact layout.wellFormed_ofScientific x.negative hdigits hfirst

end Layout

end TypeGraph
