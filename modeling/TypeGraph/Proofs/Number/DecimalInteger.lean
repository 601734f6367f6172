import TypeGraph.Number.DecimalInteger
import TypeGraph.Proofs.Text.Notation
import TypeGraph.Proofs.Text.TypeName

/-!
# One decimal form for each integer

An integer is given by a sign and digits, by text or by a machine integer, and whichever way it is
given, its decimal form is the same. `Given.Denotes` says which integer is given, without a word on
forms; the form is then that of the integer alone (`DecimalInteger.read?_eq_some_iff`).

The key fact is that digits without a zero in front are those of the number they stand for
(`toDigits_ofDigitChars`), so that dropping zeros leaves the digits of the number.

Main results:

* `DecimalInteger.ofParts?_of_isDigits`: the form of a sign and digits is that of the integer.
* `DecimalInteger.read?_canonical`: what is accepted, when two forms are equal, and what a form
  looks like.
-/

namespace TypeGraph

/-! ## Digits -/

/-- A text of digits alone, with at least one. -/
def IsDigits (digits : String) : Prop := digits ≠ "" ∧ ∀ c ∈ digits.toList, c.isDigit = true

theorem digitChar_sub {c : Char} (h : c.isDigit = true) : (c.toNat - 48).digitChar = c := by
  have hrange := Identifier.isDigit_iff.mp h
  apply Char.toNat_inj.mp
  rw [Nat.toNat_digitChar_of_lt_ten] <;> omega

theorem ofDigitChars_append_singleton (digits : List Char) (c : Char) :
    Nat.ofDigitChars 10 (digits ++ [c]) 0 = 10 * Nat.ofDigitChars 10 digits 0 + (c.toNat - 48) := by
  rw [Nat.ofDigitChars_append, Nat.ofDigitChars_cons, Nat.ofDigitChars_nil]
  rfl

/-- Zeros in front of digits count for nothing. -/
theorem ofDigitChars_dropWhile (digits : List Char) :
    Nat.ofDigitChars 10 (digits.dropWhile (· == '0')) 0 = Nat.ofDigitChars 10 digits 0 := by
  induction digits with
  | nil => rfl
  | cons c rest ih =>
    rw [List.dropWhile_cons]
    split
    · rename_i hzero
      rw [beq_iff_eq] at hzero
      rw [ih, hzero, Nat.ofDigitChars_cons]
      rfl
    · rfl

/-- Digits without a zero in front are the digits of the number that they stand for. -/
theorem toDigits_ofDigitChars {digits : List Char} (hne : digits ≠ [])
    (hdigits : ∀ c ∈ digits, c.isDigit = true) (hzero : digits.head? ≠ some '0') :
    0 < Nat.ofDigitChars 10 digits 0 ∧ Nat.toDigits 10 (Nat.ofDigitChars 10 digits 0) = digits := by
  -- induction on the last digit: what is in front of it has no zero in front either
  induction digits using List.reverseRecOn with
  | nil => exact absurd rfl hne
  | append_singleton front c ih =>
    have hc : c.isDigit = true := hdigits c (by simp)
    have hrange := Identifier.isDigit_iff.mp hc
    rw [ofDigitChars_append_singleton]
    by_cases hfront : front = []
    · -- the only digit is not zero
      subst hfront
      have hnot : c.toNat ≠ 48 := by
        intro heq
        exact hzero (congrArg some (Char.toNat_inj.mp heq))
      rw [Nat.ofDigitChars_nil, Nat.mul_zero, Nat.zero_add, Nat.toDigits_of_lt_base (by omega),
        digitChar_sub hc]
      exact ⟨by omega, rfl⟩
    · rw [List.head?_append_of_ne_nil _ hfront] at hzero
      obtain ⟨hpos, heq⟩ := ih hfront (fun c hc => hdigits c (List.mem_append_left _ hc)) hzero
      refine ⟨by omega, ?_⟩
      rw [← Nat.toDigits_append_toDigits (by omega) hpos (by omega), heq,
        Nat.toDigits_of_lt_base (by omega), digitChar_sub hc]

theorem Digit.char_eq_digitChar (d : Digit) : d.char = d.val.digitChar := by
  revert d
  decide

theorem map_char_ofNat (n : Nat) : (Digits.ofNat n).map Digit.char = Nat.toDigits 10 n := by
  induction n using Digits.ofNat.induct with
  | case1 n hn =>
    rw [Digits.ofNat, dif_pos hn, Nat.toDigits_of_lt_base hn, List.map_singleton,
      Digit.char_eq_digitChar]
  | case2 n hn ih =>
    have hbase : 10 ≤ n := by omega
    rw [Digits.ofNat, dif_neg hn, List.map_append, ih, Nat.toDigits_of_base_le (by omega) hbase,
      List.map_singleton, Digit.char_eq_digitChar]

theorem text_ofNat (n : Nat) : Digits.text (Digits.ofNat n) = n.repr := by
  rw [Digits.text, map_char_ofNat, Nat.repr_eq_ofList_toDigits]

/-- A positive number is written without a zero in front. -/
theorem head_repr {n : Nat} (h : 0 < n) : n.repr.toList.head? ≠ some '0' := by
  rw [Nat.toList_repr, ← map_char_ofNat, List.head?_map]
  intro hhead
  obtain ⟨d, hd, hchar⟩ := Option.map_eq_some_iff.mp hhead
  exact Digits.head_ofNat h (d.char_eq_zero_iff.mp hchar ▸ hd)

theorem isDigits_repr (n : Nat) : IsDigits n.repr := by
  constructor
  · intro h
    have hlist := congrArg String.toList h
    rw [Nat.toList_repr] at hlist
    exact Nat.toDigits_ne_nil hlist
  · intro c hc
    rw [Nat.toList_repr] at hc
    exact Nat.isDigit_of_mem_toDigits (by omega) (by omega) hc

theorem ofDigitChars_repr (n : Nat) : Nat.ofDigitChars 10 n.repr.toList 0 = n := by
  rw [Nat.toList_repr, Nat.ofDigitChars_ten_toDigits]

namespace DecimalInteger

/-! ## The form of an integer -/

/-- The decimal form of an integer: the digits that its absolute value is written with. -/
def ofInt (n : Int) : DecimalInteger where
  negative := n < 0
  magnitude := n.natAbs.repr

theorem value_ofInt (n : Int) : (ofInt n).value = n := by
  unfold value signed ofInt
  simp only [ofDigitChars_repr, decide_eq_true_eq]
  split <;> omega

theorem ofInt_inj {m n : Int} : ofInt m = ofInt n ↔ m = n := by
  constructor
  · intro h
    rw [← value_ofInt m, h, value_ofInt]
  · exact congrArg ofInt

theorem repr_eq_zero_iff {n : Nat} : n.repr = "0" ↔ n = 0 := by
  constructor
  · intro h
    rw [← ofDigitChars_repr n, h]
    rfl
  · rintro rfl
    rfl

theorem ofInt_signed (negative : Bool) (n : Nat) :
    ofInt (signed negative n) = { negative := negative && n.repr != "0", magnitude := n.repr } := by
  have hzero : (n.repr != "0") = decide (n ≠ 0) := by
    rw [bne, Bool.eq_iff_iff]
    simp [repr_eq_zero_iff]
  rw [hzero]
  cases negative with
  | false => simp [ofInt, signed]
  | true =>
    simp only [ofInt, signed, if_true, Bool.true_and, mk.injEq, decide_eq_decide]
    exact ⟨by omega, by rw [Int.natAbs_neg, Int.natAbs_natCast]⟩

/-- The form has no zero in front of another digit, and zero has no sign. -/
structure Canonical (n : DecimalInteger) : Prop where
  digits : IsDigits n.magnitude
  leading : n.magnitude.toList.head? = some '0' → n.magnitude = "0"
  zero : n.magnitude = "0" → n.negative = false

theorem canonical_ofInt (n : Int) : (ofInt n).Canonical where
  digits := isDigits_repr n.natAbs
  leading h := by
    -- only zero is written with a zero in front
    have hzero : n.natAbs = 0 := by
      by_contra hne
      exact head_repr (by omega) h
    exact repr_eq_zero_iff.mpr hzero
  zero h := by
    have hzero : n.natAbs = 0 := repr_eq_zero_iff.mp h
    exact decide_eq_false (by omega)

/-! ## Sign and digits -/

/-- Without the zeros in front, the digits are those of the number. -/
theorem trimmed_eq_repr {digits : String} (h : IsDigits digits) :
    (if (digits.toList.dropWhile (· == '0')).isEmpty then "0"
      else String.ofList (digits.toList.dropWhile (· == '0'))) =
      (Nat.ofDigitChars 10 digits.toList 0).repr := by
  rw [← ofDigitChars_dropWhile digits.toList]
  split
  · rename_i hempty
    rw [List.isEmpty_iff.mp hempty]
    rfl
  · rename_i hne
    have hdigits : ∀ c ∈ digits.toList.dropWhile (· == '0'), c.isDigit = true := by
      intro c hc
      exact h.2 c ((List.dropWhile_sublist _).mem hc)
    -- behind the zeros stands a digit that is none, so these are the digits of the number
    have hzero : (digits.toList.dropWhile (· == '0')).head? ≠ some '0' := by
      intro hhead
      have hnot := List.head?_dropWhile_not (· == '0') digits.toList
      rw [hhead] at hnot
      simp at hnot
    have hrepr := (toDigits_ofDigitChars (by simpa using hne) hdigits hzero).2
    rw [Nat.repr_eq_ofList_toDigits, hrepr]

/-- Digits are accepted, and their form is that of the integer. -/
theorem ofParts?_of_isDigits (negative : Bool) {digits : String} (h : IsDigits digits) :
    ofParts? negative digits =
      some (ofInt (signed negative (Nat.ofDigitChars 10 digits.toList 0))) := by
  have hlist : digits.toList ≠ [] := by
    intro hnil
    exact h.1 (String.toList_eq_nil_iff.mp hnil)
  have hall : digits.toList.all Char.isDigit = true := List.all_eq_true.mpr h.2
  rw [ofParts?, if_neg (by simp [hlist, hall]), ofInt_signed, ← trimmed_eq_repr h]

theorem ofParts?_of_not_isDigits (negative : Bool) {digits : String} (h : ¬ IsDigits digits) :
    ofParts? negative digits = none := by
  rw [ofParts?, if_pos]
  rw [Bool.or_eq_true, Bool.not_eq_true', List.isEmpty_iff, String.toList_eq_nil_iff]
  by_contra hnot
  rw [not_or, Bool.not_eq_false, List.all_eq_true] at hnot
  exact h hnot

/-! ## Text -/

theorem parse?_minus (digits : String) : parse? ("-" ++ digits) = ofParts? true digits := by
  have hlist : ("-" ++ digits).toList = '-' :: digits.toList := by
    rw [String.toList_append]
    rfl
  rw [parse?, hlist]
  simp only [String.ofList_toList]

theorem parse?_plain {source : String} (h : ∀ rest, source.toList ≠ '-' :: rest) :
    parse? source = ofParts? false source := by
  rw [parse?]
  split
  · rename_i rest hlist
    exact absurd hlist (h rest)
  · rfl

theorem ne_minus_cons {digits : String} (h : IsDigits digits) (rest : List Char) :
    digits.toList ≠ '-' :: rest := by
  intro hlist
  have hdigit := h.2 '-' (hlist ▸ List.mem_cons_self)
  exact absurd hdigit (by decide)

theorem parse?_text_ofInt (n : Int) : parse? (ofInt n).text = some (ofInt n) := by
  have hdigits := isDigits_repr n.natAbs
  -- the sign is written in front of negative integers only, and is split off again
  by_cases hn : n < 0
  · have htext : (ofInt n).text = "-" ++ n.natAbs.repr := by
      simp [text, ofInt, hn]
    rw [htext, parse?_minus, ofParts?_of_isDigits true hdigits, ofDigitChars_repr, signed,
      if_pos rfl]
    congr 2
    omega
  · have htext : (ofInt n).text = n.natAbs.repr := by
      simp [text, ofInt, hn]
    rw [htext, parse?_plain (ne_minus_cons hdigits), ofParts?_of_isDigits false hdigits,
      ofDigitChars_repr, signed, if_neg Bool.false_ne_true]
    congr 2
    omega

theorem toString_eq_text (n : Int) : toString n = (ofInt n).text := by
  cases n with
  | ofNat m =>
    have hnonneg : ¬ (m : Int) < 0 := by omega
    simp [text, ofInt, hnonneg, toString, Int.repr]
  | negSucc m =>
    have hneg : Int.negSucc m < 0 := Int.negSucc_lt_zero m
    simp [text, ofInt, hneg, toString, Int.repr]

/-! ## Machine integers -/

/-- The magnitude without a sign is the absolute value, also of the least machine integer. -/
theorem toNat_abs (n : Int64) : n.abs.toUInt64.toNat = n.toInt.natAbs := by
  have habs : n.abs.toUInt64.toNat = n.toBitVec.abs.toNat := rfl
  have hlt := n.toBitVec.isLt
  rw [habs, BitVec.toNat_abs, ← Int64.toInt_toBitVec, BitVec.toInt_eq_msb_cond]
  split <;> omega

theorem ofInt64_eq (n : Int64) : ofInt64 n = ofInt n.toInt := by
  have hnegative : n < 0 ↔ n.toInt < 0 := Int64.lt_iff_toInt_lt
  have hmagnitude : toString n.abs.toUInt64 = n.toInt.natAbs.repr := by
    rw [← toNat_abs]
    rfl
  rw [ofInt64, ofInt, hmagnitude]
  simp only [hnegative]

/-! ## What is given -/

/-- The ways in which an integer is given. -/
inductive Given where
  | parts (negative : Bool) (digits : String)
  | written (source : String)
  | machine (n : Int64)

namespace Given

/-- The form that is read from what is given, if it is accepted. -/
def read? : Given → Option DecimalInteger
  | .parts negative digits => ofParts? negative digits
  | .written source => parse? source
  | .machine n => some (ofInt64 n)

/-- What is given stands for the integer. -/
inductive Denotes : Given → Int → Prop where
  | parts (negative : Bool) {digits : String} (h : IsDigits digits) :
      Denotes (.parts negative digits) (signed negative (Nat.ofDigitChars 10 digits.toList 0))
  | plain {digits : String} (h : IsDigits digits) :
      Denotes (.written digits) (signed false (Nat.ofDigitChars 10 digits.toList 0))
  | minus {digits : String} (h : IsDigits digits) :
      Denotes (.written ("-" ++ digits)) (signed true (Nat.ofDigitChars 10 digits.toList 0))
  | machine (n : Int64) : Denotes (.machine n) n.toInt

/-- What stands for an integer is read as the form of the integer. -/
theorem Denotes.read?_eq {given : Given} {n : Int} (h : given.Denotes n) :
    given.read? = some (ofInt n) := by
  cases h with
  | parts negative h => exact ofParts?_of_isDigits negative h
  | plain h => exact (parse?_plain (ne_minus_cons h)).trans (ofParts?_of_isDigits false h)
  | minus h => exact (parse?_minus _).trans (ofParts?_of_isDigits true h)
  | machine n => exact congrArg some (ofInt64_eq n)

theorem isDigits_of_ofParts? {negative : Bool} {digits : String}
    (h : (ofParts? negative digits).isSome) : IsDigits digits := by
  by_contra hnot
  rw [ofParts?_of_not_isDigits negative hnot] at h
  cases h

/-- What is read stands for an integer. -/
theorem exists_denotes {given : Given} (h : given.read?.isSome) : ∃ n, given.Denotes n := by
  cases given with
  | parts negative digits => exact ⟨_, .parts negative (isDigits_of_ofParts? h)⟩
  | machine n => exact ⟨_, .machine n⟩
  | written source =>
    -- a minus sign in front is taken off, and digits follow
    by_cases hminus : ∃ rest, source.toList = '-' :: rest
    · obtain ⟨rest, hrest⟩ := hminus
      obtain rfl : source = "-" ++ String.ofList rest := by
        rw [← @String.ofList_toList source, hrest]
        exact @String.ofList_append ['-'] _
      change (parse? _).isSome at h
      rw [parse?_minus] at h
      exact ⟨_, .minus (isDigits_of_ofParts? h)⟩
    · change (parse? source).isSome at h
      rw [parse?_plain (not_exists.mp hminus)] at h
      exact ⟨_, .plain (isDigits_of_ofParts? h)⟩

/-- What is read is the form of the integer that is given. -/
theorem read?_eq_some_iff {given : Given} {form : DecimalInteger} :
    given.read? = some form ↔ ∃ n, given.Denotes n ∧ form = ofInt n := by
  constructor
  · intro h
    obtain ⟨n, hn⟩ := exists_denotes (Option.isSome_of_eq_some h)
    exact ⟨n, hn, Option.some.inj (h.symm.trans hn.read?_eq)⟩
  · rintro ⟨n, hn, rfl⟩
    exact hn.read?_eq

/-- What is given stands for one integer at most. -/
theorem Denotes.unique {given : Given} {m n : Int} (hm : given.Denotes m) (hn : given.Denotes n) :
    m = n :=
  ofInt_inj.mp (Option.some.inj (hm.read?_eq.symm.trans hn.read?_eq))

end Given

/-! ## The integers of literals

Literals hold the integer itself, which is read from digits and written with them. -/

theorem char_ofChar? {c : Char} (h : c.isDigit = true) :
    ((Digit.ofChar? c).getD Digit.zero).char = c := by
  have hrange := Identifier.isDigit_iff.mp h
  have hshift : 48 + (c.toNat - 48) = c.toNat := by omega
  rw [Digit.ofChar?, dif_pos (by omega), Option.getD_some, Digit.char, hshift, Char.ofNat_toNat]

theorem exists_text_of_isDigits {digits : String} (h : IsDigits digits) :
    ∃ list, list ≠ [] ∧ digits = Digits.text list := by
  refine ⟨digits.toList.map fun c => (Digit.ofChar? c).getD Digit.zero, ?_, ?_⟩
  · intro hnil
    exact h.1 (String.toList_eq_nil_iff.mp (List.map_eq_nil_iff.mp hnil))
  · have hmap : (digits.toList.map fun c => (Digit.ofChar? c).getD Digit.zero).map Digit.char =
        digits.toList := by
      rw [List.map_map]
      exact (List.map_congr_left fun c hc => char_ofChar? (h.2 c hc)).trans (List.map_id _)
    rw [Digits.text, hmap, String.ofList_toList]

theorem isDigits_text {list : List Digit} (h : list ≠ []) : IsDigits (Digits.text list) := by
  rw [IsDigits, ne_eq, ← String.toList_eq_nil_iff, Digits.toList_text, List.map_eq_nil_iff]
  refine ⟨h, ?_⟩
  intro c hc
  obtain ⟨d, -, rfl⟩ := List.mem_map.mp hc
  exact d.isDigit_char

theorem eq_char_of_ofChar? {c : Char} {d : Digit} (h : Digit.ofChar? c = some d) : c = d.char := by
  have hdigit : c.isDigit = true := by
    rw [Digit.ofChar?] at h
    split at h
    · rw [Identifier.isDigit_iff]
      omega
    · cases h
  have hchar := char_ofChar? hdigit
  rw [h, Option.getD_some] at hchar
  exact hchar.symm

theorem eq_map_of_mapM_ofChar? {chars : List Char} {list : List Digit}
    (h : chars.mapM Digit.ofChar? = some list) : chars = list.map Digit.char := by
  induction chars generalizing list with
  | nil =>
    cases h
    rfl
  | cons c rest ih =>
    rw [List.mapM_cons] at h
    obtain ⟨d, hd, h⟩ := Option.bind_eq_some_iff.mp h
    obtain ⟨more, hmore, h⟩ := Option.bind_eq_some_iff.mp h
    cases h
    rw [List.map_cons, ← eq_char_of_ofChar? hd, ← ih hmore]

theorem eq_text_of_ofText? {digits : String} {list : List Digit}
    (h : Digits.ofText? digits = some list) : digits = Digits.text list := by
  rw [Digits.text, ← eq_map_of_mapM_ofChar? h, String.ofList_toList]

theorem toNat_eq_ofDigitChars (list : List Digit) :
    Digits.toNat list = Nat.ofDigitChars 10 (Digits.text list).toList 0 := by
  rw [Digits.toList_text, Nat.ofDigitChars_eq_foldl, List.foldl_map, Digits.toNat]
  refine congrArg (fun f => List.foldl f 0 list) (funext fun n => funext fun d => ?_)
  rw [Digit.char_eq_digitChar, Nat.toNat_digitChar_of_lt_ten d.isLt]
  simp

/-- The integer of a sign and digits is that of their form. -/
theorem integer_ofParts?_eq (negative : Bool) (digits : String) :
    Integer.ofParts? negative digits = (ofParts? negative digits).map value := by
  by_cases h : IsDigits digits
  · rw [ofParts?_of_isDigits negative h, Option.map_some, value_ofInt]
    obtain ⟨list, hne, rfl⟩ := exists_text_of_isDigits h
    rw [Integer.ofParts?_text negative hne, ← toNat_eq_ofDigitChars]
    rfl
  · rw [ofParts?_of_not_isDigits negative h, Option.map_none, Integer.ofParts?]
    split
    · rename_i d rest hlist
      rw [eq_text_of_ofText? hlist] at h
      exact absurd (isDigits_text (List.cons_ne_nil d rest)) h
    · rfl

theorem integer_parse?_eq (source : String) :
    Integer.parse? source = (parse? source).map value := by
  by_cases hminus : ∃ rest, source.toList = '-' :: rest
  · obtain ⟨rest, hrest⟩ := hminus
    rw [Integer.parse?, parse?, hrest]
    exact integer_ofParts?_eq true _
  · rw [parse?_plain (not_exists.mp hminus), Integer.parse?]
    split
    · rename_i rest hlist
      exact absurd ⟨rest, hlist⟩ hminus
    · exact integer_ofParts?_eq false source

theorem integer_text_eq (n : Int) : Integer.text n = (ofInt n).text := by
  rw [Integer.text, Integer.magnitude, text_ofNat]
  simp [text, ofInt]

/-! ## All ways to give an integer -/

/-- Integers have one form each, whichever way they are given. Digits are accepted with a sign
beside them or with at most one minus sign in front, and nothing else is; forms are equal exactly if
one integer is denoted; a form is canonical and is read from its own text; a machine integer has the
form of its decimal text. -/
theorem read?_canonical :
    (∀ negative digits, (ofParts? negative digits).isSome = true ↔ IsDigits digits) ∧
    (∀ source, (parse? source).isSome = true ↔
      ∃ digits, IsDigits digits ∧ (source = digits ∨ source = "-" ++ digits)) ∧
    (∀ given : Given, given.read?.isSome = true ↔ ∃! n, given.Denotes n) ∧
    (∀ (given other : Given) (form form' : DecimalInteger),
      given.read? = some form → other.read? = some form' →
        (form = form' ↔ ∃ n, given.Denotes n ∧ other.Denotes n)) ∧
    (∀ (given : Given) (form : DecimalInteger), given.read? = some form →
      form.Canonical ∧ given.Denotes form.value ∧ parse? form.text = some form) ∧
    (∀ n : Int64, parse? (toString n.toInt) = some (ofInt64 n)) ∧
    (∀ negative digits, Integer.ofParts? negative digits = (ofParts? negative digits).map value) ∧
    (∀ source, Integer.parse? source = (parse? source).map value) ∧
    (∀ n, (parse? (Integer.text n)).map value = some n) := by
  refine ⟨?_, ?_, ?_, ?_, ?_, ?_, integer_ofParts?_eq, integer_parse?_eq, ?_⟩
  · -- digits beside a sign
    intro negative digits
    refine ⟨Given.isDigits_of_ofParts?, ?_⟩
    intro h
    rw [ofParts?_of_isDigits negative h]
    rfl
  · -- a text that may have a sign of its own
    intro source
    constructor
    · intro h
      obtain ⟨n, hn⟩ := @Given.exists_denotes (.written source) h
      cases hn with
      | plain hdigits => exact ⟨_, hdigits, .inl rfl⟩
      | minus hdigits => exact ⟨_, hdigits, .inr rfl⟩
    · rintro ⟨digits, hdigits, rfl | rfl⟩
      · exact Option.isSome_of_eq_some (Given.Denotes.plain hdigits).read?_eq
      · exact Option.isSome_of_eq_some (Given.Denotes.minus hdigits).read?_eq
  · -- a form is made exactly if something is denoted, and then only one integer is
    intro given
    constructor
    · intro h
      obtain ⟨n, hn⟩ := Given.exists_denotes h
      exact ⟨n, hn, fun m hm => hm.unique hn⟩
    · rintro ⟨n, hn, -⟩
      exact Option.isSome_of_eq_some hn.read?_eq
  · -- forms are those of the integers that are denoted
    intro given other form form' hform hform'
    obtain ⟨m, hm, rfl⟩ := Given.read?_eq_some_iff.mp hform
    obtain ⟨n, hn, rfl⟩ := Given.read?_eq_some_iff.mp hform'
    rw [ofInt_inj]
    constructor
    · rintro rfl
      exact ⟨m, hm, hn⟩
    · rintro ⟨k, hk, hk'⟩
      rw [hm.unique hk, hn.unique hk']
  · intro given form hform
    obtain ⟨n, hn, rfl⟩ := Given.read?_eq_some_iff.mp hform
    rw [value_ofInt]
    exact ⟨canonical_ofInt n, hn, parse?_text_ofInt n⟩
  · intro n
    rw [toString_eq_text, ofInt64_eq, parse?_text_ofInt]
  · intro n
    rw [integer_text_eq, parse?_text_ofInt, Option.map_some, value_ofInt]

example : parse? "-000" = some { negative := false, magnitude := "0" } := by decide

example :
    ofInt64 Int64.minValue = { negative := true, magnitude := "9223372036854775808" } := by decide

end DecimalInteger

end TypeGraph
