import TypeGraph.Proofs.Text.Tokens

/-!
# Literals are read as they are written

The text of a literal is one token, and from it the literal can be read back up to the sign of zero,
which is not written. Not-a-number is the exception, as it equals nothing.

Main results:

* `Literal.canonical_eq_iff`: canonical literals are the same if and only if the literals are equal.
* `Literal.tokens_text`: the text of a literal is one token.
* `Literal.ofToken?_token`: the literal is read from the token.
-/

namespace TypeGraph

/-! ## Equal literals -/

namespace Binary64

/-- The number, with zero always positive. -/
def canonical (x : Binary64) : Binary64 := if x.isZero then zero else x

/-- Numbers are equal if and only if they differ in the sign of zero at most. -/
theorem beq_iff {x y : Binary64} (hx : x.isNaN = false) (hy : y.isNaN = false) :
    x.beq y = true ↔ x.canonical = y.canonical := by
  unfold beq canonical
  rw [hx, hy]
  simp only [Bool.not_false, Bool.true_and, Bool.or_eq_true, beq_iff_eq, Bool.and_eq_true]
  constructor
  · rintro (rfl | ⟨hx, hy⟩)
    · rfl
    · rw [if_pos hx, if_pos hy]
  · intro h
    split at h
    · split at h
      · exact .inr ⟨‹_›, ‹_›⟩
      · -- a number that is not zero is left as it is, and differs from zero
        subst h
        exact absurd rfl ‹¬zero.isZero = true›
    · split at h
      · subst h
        exact absurd rfl ‹¬zero.isZero = true›
      · exact .inl h

theorem eq_infinity {x : Binary64} (h : x.isInfinite = true) : x = infinity x.negative := by
  obtain ⟨negative, ordinal, hlt⟩ := x
  obtain rfl : ordinal = infinityOrdinal := eq_of_beq h
  rfl

theorem isFinite_of_not {x : Binary64} (hnan : x.isNaN = false) (hinfinite : x.isInfinite = false) :
    x.isFinite = true := by
  have hle : x.ordinal ≤ infinityOrdinal := Nat.not_lt.mp (of_decide_eq_false hnan)
  have hne : x.ordinal ≠ infinityOrdinal := beq_eq_false_iff_ne.mp hinfinite
  exact decide_eq_true (Nat.lt_of_le_of_ne hle hne)

theorem isNaN_of_isFinite {x : Binary64} (h : x.isFinite = true) : x.isNaN = false :=
  decide_eq_false (Nat.not_lt.mpr (Nat.le_of_lt (of_decide_eq_true h)))

end Binary64

namespace Literal

/-- Whether a literal is the number that equals nothing. -/
def isNaN : Literal → Bool
  | number x => x.isNaN
  | _ => false

/-- The literal, with zero always positive. -/
def canonical : Literal → Literal
  | number x => number x.canonical
  | value => value

/-- Canonical literals are the same if and only if the literals are equal. -/
theorem canonical_eq_iff {a b : Literal} (ha : a.isNaN = false) (hb : b.isNaN = false) :
    a.canonical = b.canonical ↔ a.beq b = true := by
  cases a with
  | number x =>
    cases b with
    | number y => exact number.injEq _ _ ▸ (Binary64.beq_iff ha hb).symm
    | _ => exact ⟨fun h => Literal.noConfusion h, fun h => Bool.noConfusion h⟩
  | _ =>
    cases b with
    | number y => exact ⟨fun h => Literal.noConfusion h, fun h => Bool.noConfusion h⟩
    | _ => exact beq_iff_eq.symm

end Literal

/-! ## Words of numbers -/

namespace Source

/-- Whether a character stands in numerals: a digit, a point, a sign or the mark of a power. -/
def isNumeric (c : Char) : Bool := c.isDigit || c == '.' || c == 'e' || c == '+' || c == '-'

theorem continues_of_isNumeric {first c : Char} (hfirst : first.isDigit = true ∨ first = '-')
    (h : isNumeric c = true) : continues first c = true := by
  have hnumber : (first.isDigit || first == '-') = true := by
    rcases hfirst with h | rfl
    · rw [h, Bool.true_or]
    · rw [beq_self_eq_true, Bool.or_true]
  rw [continues, hnumber]
  simp only [isNumeric, Bool.or_eq_true, beq_iff_eq] at h
  simp only [Bool.true_and, Bool.or_eq_true, beq_iff_eq, Identifier.isPart, Char.isAlphanum]
  -- digits and the mark of a power are parts of names, points and signs are not
  rcases h with (((h | h) | rfl) | h) | h
  · exact .inl (.inl (.inl (.inr h)))
  · exact .inr (.inl (.inl h))
  · exact .inl (.inl (.inl (.inl (by decide))))
  · exact .inr (.inl (.inr h))
  · exact .inr (.inr h)

/-- Whether a text is made of the characters of numerals and starts with a digit or a minus sign. -/
structure Numeric (text : List Char) : Prop where
  first : ∃ first rest, text = first :: rest ∧ (first.isDigit = true ∨ first = '-')
  all : ∀ c ∈ text, isNumeric c = true

theorem Numeric.isWord {text : List Char} (h : Numeric text) : isWord text = true := by
  obtain ⟨first, rest, rfl, hfirst⟩ := h.first
  rw [Source.isWord, Bool.and_eq_true, List.all_eq_true]
  refine ⟨?_, fun c hc => continues_of_isNumeric hfirst (h.all c (List.mem_cons_of_mem _ hc))⟩
  rcases hfirst with hdigit | rfl
  · rw [Identifier.isPart, Char.isAlphanum, hdigit, Bool.or_true, Bool.true_or, Bool.true_or,
      Bool.true_or]
  · rfl

end Source

theorem Digit.isDigit_char (d : Digit) : d.char.isDigit = true := by
  revert d
  decide

theorem Digits.isNumeric_of_mem {digits : List Digit} {c : Char} (h : c ∈ digits.map Digit.char) :
    Source.isNumeric c = true := by
  obtain ⟨d, -, rfl⟩ := List.mem_map.mp h
  rw [Source.isNumeric, d.isDigit_char]
  rfl

/-- A sign and digits are numeric, and stay so with numeric text behind them. -/
theorem Digits.numeric (negative : Bool) {digits : List Digit} (h : digits ≠ []) {more : List Char}
    (hmore : ∀ c ∈ more, Source.isNumeric c = true) :
    Source.Numeric ((if negative then ['-'] else []) ++ (digits.map Digit.char ++ more)) := by
  obtain ⟨d, digits, rfl⟩ := List.exists_cons_of_ne_nil h
  have hall : ∀ c ∈ (d :: digits).map Digit.char ++ more, Source.isNumeric c = true := fun c hc =>
    (List.mem_append.mp hc).elim Digits.isNumeric_of_mem (hmore c)
  cases negative with
  | true => exact ⟨⟨_, _, rfl, .inr rfl⟩, List.forall_mem_cons.mpr ⟨by decide, hall⟩⟩
  | false => exact ⟨⟨_, _, rfl, .inl d.isDigit_char⟩, hall⟩

theorem Numeral.numeric_text {n : Numeral} (h : n.WellFormed) : Source.Numeric n.text.toList := by
  rw [toList_text]
  refine Digits.numeric n.negative h.whole fun c hc => ?_
  -- behind the whole digits stand the fraction and the exponent
  rcases List.mem_append.mp hc with hc | hc
  · unfold fractionChars at hc
    split at hc
    · cases hc
    · rcases List.mem_cons.mp hc with rfl | hc
      · rfl
      · exact Digits.isNumeric_of_mem hc
  · cases hexponent : n.exponent with
    | none =>
      rw [hexponent] at hc
      cases hc
    | some e =>
      rw [hexponent, exponentChars] at hc
      rcases List.mem_cons.mp hc with rfl | hc
      · rfl
      · rcases List.mem_cons.mp hc with rfl | hc
        · split <;> rfl
        · exact Digits.isNumeric_of_mem hc

theorem Integer.numeric_text (n : Int) : Source.Numeric (text n).toList := by
  have hnumeric := Digits.numeric (decide (n < 0)) (Digits.ofNat_ne_nil n.natAbs)
    fun c (h : c ∈ []) => absurd h List.not_mem_nil
  rw [text, String.toList_append, magnitude, Digits.toList_text]
  rw [List.append_nil] at hnumeric
  convert hnumeric using 2
  by_cases hn : n < 0
  · rw [if_pos hn, if_pos (decide_eq_true hn)]; rfl
  · rw [if_neg hn, if_neg (by simpa using hn)]; rfl

/-! ## Reading literals -/

namespace Literal

open Source

/-- What a literal is written as. -/
def token : Literal → Token
  | string value => .quoted value
  | value => .word value.text

/-- The literal that a word is: `true`, `false`, `null`, an integer with an `n` behind it or a
number. -/
def ofWord? (word : String) : Option Literal :=
  if word = "true" then some (boolean true)
  else if word = "false" then some (boolean false)
  else if word = "null" then some null
  else match word.toList.reverse with
    | 'n' :: digits => (Integer.parse? (String.ofList digits.reverse)).map bigint
    | _ => (Binary64.ofText? word).map fun x => number x.canonical

/-- The literal that a token is. -/
def ofToken? : Token → Option Literal
  | .word word => ofWord? word
  | .quoted text => some (string text)
  | .mark _ => none

/-- A finite number is written as its numeral. -/
theorem numberText_of_isFinite {x : Binary64} (h : x.isFinite = true) :
    numberText x = (numberLayout.numeral x).text := by
  have hinfinite : x.isInfinite = false :=
    beq_eq_false_iff_ne.mpr (Nat.ne_of_lt (of_decide_eq_true h))
  rw [numberText, if_neg (Bool.not_eq_true _ ▸ Binary64.isNaN_of_isFinite h),
    if_neg (Bool.not_eq_true _ ▸ hinfinite)]

theorem numeric_numberText {x : Binary64} (h : x.isFinite = true) :
    Numeric (numberText x).toList := by
  rw [numberText_of_isFinite h]
  exact Numeral.numeric_text (numberLayout.wellFormed_numeral x)

theorem numberText_of_isInfinite {x : Binary64} (h : x.isInfinite = true) :
    numberText x = if x.negative then "-Infinity" else "Infinity" := by
  have hnan : x.isNaN = false := by
    rw [Binary64.eq_infinity h]
    rfl
  rw [numberText, if_neg (Bool.not_eq_true _ ▸ hnan), if_pos h]

/-- Anything but a string is written as a word. -/
theorem isWord_text {value : Literal} (h : ∀ text, value ≠ string text) :
    isWord value.text.toList = true := by
  cases value with
  | string text => exact absurd rfl (h text)
  | number x =>
    rw [text]
    cases hnan : x.isNaN with
    | true => rw [numberText, if_pos hnan]; decide
    | false =>
      cases hinfinite : x.isInfinite with
      | true => rw [numberText_of_isInfinite hinfinite]; split <;> decide
      | false => exact (numeric_numberText (Binary64.isFinite_of_not hnan hinfinite)).isWord
  | boolean b => cases b <;> decide
  | bigint n =>
    obtain ⟨first, rest, hfirst, hnumber⟩ := (Integer.numeric_text n).first
    have hword := (Integer.numeric_text n).isWord
    rw [hfirst, isWord, Bool.and_eq_true] at hword
    -- the `n` behind the digits is part of the word
    rw [text, String.toList_append, hfirst]
    change isWord (first :: (rest ++ ['n'])) = true
    rw [isWord, List.all_append, hword.1, hword.2]
    rfl
  | null => decide

/-- The text of a literal is one token. -/
theorem tokens_text (value : Literal) {rest : List Char} (hrest : Ends rest) :
    tokens (value.text.toList ++ rest) = value.token :: tokens rest := by
  -- all literals but strings are written as one word
  have hword (h : ∀ text, value ≠ string text) :
      tokens (value.text.toList ++ rest) = .word value.text :: tokens rest := by
    have hword := isWord_text h
    cases htext : value.text.toList with
    | nil => rw [htext] at hword; cases hword
    | cons first more =>
      rw [htext] at hword
      rw [tokens_word hword (hrest.continues first), ← htext, String.ofList_toList]
  cases value with
  | string text => exact tokens_quote text rest
  | number x => exact hword fun _ h => Literal.noConfusion h
  | boolean b => exact hword fun _ h => Literal.noConfusion h
  | bigint n => exact hword fun _ h => Literal.noConfusion h
  | null => exact hword fun _ h => Literal.noConfusion h

/-- A numeric word is read as the number that it writes. -/
theorem ofWord?_numeric {word : String} (h : Numeric word.toList) :
    ofWord? word = (Numeral.ofChars? word.toList).map fun n => number n.nearest.canonical := by
  -- a word with a letter in it, other than the mark of a power, is another word
  have hne {other : String} (hother : ∃ c ∈ other.toList, isNumeric c = false) : word ≠ other := by
    rintro rfl
    obtain ⟨c, hc, hnumeric⟩ := hother
    rw [h.all c hc] at hnumeric
    cases hnumeric
  rw [ofWord?, if_neg (hne ⟨'t', by decide, rfl⟩), if_neg (hne ⟨'f', by decide, rfl⟩),
    if_neg (hne ⟨'u', by decide, rfl⟩)]
  split
  · rename_i digits hreverse
    have hmem : 'n' ∈ word.toList := by
      rw [← List.mem_reverse, hreverse]
      exact List.mem_cons_self
    exact absurd (h.all _ hmem) (by decide)
  · unfold Binary64.ofText?
    split
    · exact absurd rfl (hne ⟨'N', by decide, rfl⟩)
    · exact absurd rfl (hne ⟨'I', by decide, rfl⟩)
    · exact absurd rfl (hne ⟨'I', by decide, rfl⟩)
    · rw [Option.map_map]
      rfl

/-- From its token the literal is read. -/
theorem ofToken?_token {value : Literal} (h : value.isNaN = false) :
    ofToken? value.token = some value.canonical := by
  cases value with
  | string text => rfl
  | boolean b => cases b <;> rfl
  | null => rfl
  | number x =>
    change ofWord? (numberText x) = _
    cases hinfinite : x.isInfinite with
    | true =>
      rw [Binary64.eq_infinity hinfinite]
      cases x.negative <;> rfl
    | false =>
      have hfinite := Binary64.isFinite_of_not h hinfinite
      rw [ofWord?_numeric (numeric_numberText hfinite)]
      rw [numberText_of_isFinite hfinite, Numeral.ofChars?_text (numberLayout.wellFormed_numeral x)]
      -- the number nearest to what is written is the number, up to the sign of zero
      have hnearest := numberLayout.nearest_numeral hfinite
      have hnan : (numberLayout.numeral x).nearest.isNaN = false := by
        rw [Binary64.beq, Bool.and_eq_true, Bool.and_eq_true, Bool.not_eq_true'] at hnearest
        exact hnearest.1.1
      rw [Binary64.beq_iff hnan h] at hnearest
      rw [Option.map_some, hnearest]
      rfl
  | bigint n =>
    change ofWord? (Integer.text n ++ "n") = _
    have hreverse :
        (Integer.text n ++ "n").toList.reverse = 'n' :: (Integer.text n).toList.reverse := by
      rw [String.toList_append, List.reverse_append]
      rfl
    -- none of the other words ends with an `n`
    have hne {other : String} (hother : other.toList.reverse.head? ≠ some 'n') :
        Integer.text n ++ "n" ≠ other := by
      rintro rfl
      rw [hreverse] at hother
      exact hother rfl
    rw [ofWord?, if_neg (hne (by decide)), if_neg (hne (by decide)), if_neg (hne (by decide)),
      hreverse]
    change (Integer.parse? (String.ofList (Integer.text n).toList.reverse.reverse)).map bigint = _
    rw [List.reverse_reverse, String.ofList_toList, Integer.parse?_text]
    rfl

end Literal

end TypeGraph
