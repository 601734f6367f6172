import TypeGraph.Text.Identifier

/-!
# Names of types

Identifiers that are derived from labels are type names: an upper-case letter with letters and
digits behind it, all of them ASCII. A number behind a type name leaves it one, and a type name is
derived from itself.

Main results:

* `Identifier.isTypeName_of_ofLabel?`: whatever is derived from a label is a type name.
* `Identifier.ofLabel?_of_isTypeName`: a type name is derived from itself.
-/

namespace TypeGraph.Identifier

/-- Whether a name is an upper-case letter with letters and digits behind it. -/
def isTypeName (name : String) : Bool :=
  match name.toList with
  | [] => false
  | first :: rest => first.isUpper && rest.all Char.isAlphanum

theorem isTypeName_ofList (first : Char) (rest : List Char) :
    isTypeName (String.ofList (first :: rest)) = (first.isUpper && rest.all Char.isAlphanum) := by
  rw [isTypeName, String.toList_ofList]

theorem exists_of_isTypeName {name : String} (h : isTypeName name = true) :
    ∃ first rest, name = String.ofList (first :: rest) ∧ first.isUpper = true ∧
      rest.all Char.isAlphanum = true := by
  unfold isTypeName at h
  split at h
  · cases h
  · rename_i first rest hname
    rw [Bool.and_eq_true] at h
    exact ⟨first, rest, by rw [← hname, String.ofList_toList], h⟩

/-! ## Characters -/

theorem isUpper_iff {c : Char} : c.isUpper = true ↔ 65 ≤ c.toNat ∧ c.toNat ≤ 90 := by
  unfold Char.isUpper
  simp only [decide_eq_true_eq, UInt32.le_iff_toNat_le, ge_iff_le]
  exact Iff.rfl

theorem isLower_iff {c : Char} : c.isLower = true ↔ 97 ≤ c.toNat ∧ c.toNat ≤ 122 := by
  unfold Char.isLower
  simp only [Bool.and_eq_true, decide_eq_true_eq, UInt32.le_iff_toNat_le, ge_iff_le]
  exact Iff.rfl

theorem isDigit_iff {c : Char} : c.isDigit = true ↔ 48 ≤ c.toNat ∧ c.toNat ≤ 57 := by
  simp only [Char.isDigit, Bool.and_eq_true, decide_eq_true_eq, UInt32.le_iff_toNat_le, ge_iff_le]
  exact Iff.rfl

/-- Letters in lower case have their upper case 32 places before them. -/
theorem toNat_toUpper (c : Char) :
    c.toUpper.toNat = if 97 ≤ c.toNat ∧ c.toNat ≤ 122 then c.toNat - 32 else c.toNat := by
  have hcond : ('a'.val ≤ c.val ∧ c.val ≤ 'z'.val) ↔ (97 ≤ c.toNat ∧ c.toNat ≤ 122) := by
    simp only [UInt32.le_iff_toNat_le]
    exact Iff.rfl
  unfold Char.toUpper
  split
  · rename_i h
    rw [if_pos (hcond.mp h)]
    have hlow := hcond.mp h
    -- the shift is down by 32, as an addition that goes past the end of the range
    have hshift : ('A'.val - 'a'.val).toNat = 4294967264 := rfl
    show (c.val + ('A'.val - 'a'.val)).toNat = c.toNat - 32
    rw [UInt32.toNat_add, hshift]
    have : c.val.toNat = c.toNat := rfl
    omega
  · rename_i h
    rw [if_neg fun hlow => h (hcond.mpr hlow)]

theorem isAlphanum_iff {c : Char} :
    c.isAlphanum = true ↔ (c.isUpper = true ∨ c.isLower = true) ∨ c.isDigit = true := by
  unfold Char.isAlphanum Char.isAlpha
  rw [Bool.or_eq_true, Bool.or_eq_true]

theorem isAlphanum_of_isUpper {c : Char} (h : c.isUpper = true) : c.isAlphanum = true :=
  isAlphanum_iff.mpr (.inl (.inl h))

theorem isAlphanum_of_isDigit {c : Char} (h : c.isDigit = true) : c.isAlphanum = true :=
  isAlphanum_iff.mpr (.inr h)

/-- An upper-case letter is none that has another upper case. -/
theorem toUpper_of_isUpper {c : Char} (h : c.isUpper = true) : c.toUpper = c := by
  have hrange := isUpper_iff.mp h
  apply Char.toNat_inj.mp
  rw [toNat_toUpper, if_neg]
  omega

/-- A letter or digit in upper case. -/
theorem isUpper_or_isDigit_toUpper {c : Char} (h : c.isAlphanum = true) :
    c.toUpper.isUpper = true ∨ c.toUpper.isDigit = true := by
  rw [isAlphanum_iff, isUpper_iff, isLower_iff, isDigit_iff] at h
  rw [isUpper_iff, isDigit_iff, toNat_toUpper]
  split <;> omega

/-! ## Labels -/

/-- In a word that goes on, all letters and digits stay as they are. -/
theorem pascalChars_of_all {label : List Char} (h : label.all Char.isAlphanum = true) :
    pascalChars false label = label := by
  induction label with
  | nil => rfl
  | cons c rest ih =>
    rw [List.all_cons, Bool.and_eq_true] at h
    rw [pascalChars, if_pos h.1, ih h.2]
    rfl

/-- Being one capitalised word already and being a type name are the same. -/
theorem isPascal_eq_isTypeName (label : String) : isPascal label = isTypeName label := by
  unfold isPascal isTypeName
  cases label.toList with
  | nil => rfl
  | cons first rest =>
    -- the first character is asked twice, and an upper-case letter is a letter
    show (first.isUpper && (first.isAlphanum && rest.all Char.isAlphanum)) =
      (first.isUpper && rest.all Char.isAlphanum)
    cases hfirst : first.isUpper with
    | false => rfl
    | true => rw [isAlphanum_of_isUpper hfirst, Bool.true_and]

/-- A label that stays as it is would come out of its words unchanged. -/
theorem toList_pascalCase (label : String) :
    (pascalCase label).toList = pascalChars true label.toList := by
  unfold pascalCase
  split
  · rename_i hpascal
    rw [isPascal_eq_isTypeName] at hpascal
    obtain ⟨first, rest, rfl, hfirst, hrest⟩ := exists_of_isTypeName hpascal
    rw [String.toList_ofList, pascalChars, if_pos (isAlphanum_of_isUpper hfirst), if_pos rfl,
      toUpper_of_isUpper hfirst, pascalChars_of_all hrest]
  · exact String.toList_ofList

/-- An identifier is made of the words of its label. -/
theorem ofLabel?_eq (label : String) :
    ofLabel? label = match pascalChars true label.toList with
      | [] => none
      | first :: rest =>
        some (String.ofList (if first.isDigit then 'T' :: first :: rest else first :: rest)) := by
  have hname := toList_pascalCase label
  have hlabel : pascalCase label = String.ofList (pascalChars true label.toList) := by
    rw [← hname, String.ofList_toList]
  rw [ofLabel?, hlabel]
  simp only [String.toList_ofList]
  cases pascalChars true label.toList with
  | nil => rfl
  | cons first rest =>
    simp only
    split
    · exact congrArg some (@String.ofList_append ['T'] _).symm
    · rfl

theorem all_pascalChars (wordStarts : Bool) (label : List Char) :
    (pascalChars wordStarts label).all Char.isAlphanum = true := by
  induction label generalizing wordStarts with
  | nil => rfl
  | cons c rest ih =>
    rw [pascalChars]
    split
    · rename_i halphanum
      rw [List.all_cons, ih, Bool.and_true]
      split
      · rcases isUpper_or_isDigit_toUpper halphanum with h | h
        · exact isAlphanum_of_isUpper h
        · exact isAlphanum_of_isDigit h
      · exact halphanum
    · exact ih true

/-- The first character comes from the start of a word. -/
theorem head_pascalChars {label rest : List Char} {first : Char}
    (h : pascalChars true label = first :: rest) : first.isUpper = true ∨ first.isDigit = true := by
  induction label with
  | nil => cases h
  | cons c label ih =>
    rw [pascalChars] at h
    split at h
    · rename_i halphanum
      cases h
      exact isUpper_or_isDigit_toUpper halphanum
    · exact ih h

/-- Whatever is derived from a label is a type name. -/
theorem isTypeName_of_ofLabel? {label name : String} (h : ofLabel? label = some name) :
    isTypeName name = true := by
  rw [ofLabel?_eq] at h
  split at h
  · cases h
  · rename_i first rest hchars
    have hall := all_pascalChars true label.toList
    rw [hchars, List.all_cons, Bool.and_eq_true] at hall
    cases h
    split
    · -- the digit stands behind a `T`
      rw [isTypeName_ofList, List.all_cons, hall.1, hall.2]
      rfl
    · rename_i hdigit
      rw [isTypeName_ofList, hall.2, (head_pascalChars hchars).resolve_right hdigit]
      rfl

/-! ## Type names -/

theorem isTypeName_append {name : String} (h : isTypeName name = true) {more : String}
    (hmore : more.toList.all Char.isAlphanum = true) : isTypeName (name ++ more) = true := by
  obtain ⟨first, rest, rfl, hfirst, hrest⟩ := exists_of_isTypeName h
  rw [isTypeName, String.toList_append, String.toList_ofList, List.cons_append]
  simp only [hfirst, List.all_append, hrest, hmore, Bool.and_true]

theorem all_toString (n : Nat) : (toString n).toList.all Char.isAlphanum = true := by
  rw [Nat.toString_eq_repr, Nat.toList_repr, List.all_eq_true]
  intro c hc
  exact isAlphanum_of_isDigit (Nat.isDigit_of_mem_toDigits (by decide) (by decide) hc)

/-- A type name is derived from itself. -/
theorem ofLabel?_of_isTypeName {name : String} (h : isTypeName name = true) :
    ofLabel? name = some name := by
  obtain ⟨first, rest, rfl, hfirst, hrest⟩ := exists_of_isTypeName h
  have hdigit : first.isDigit = false := by
    rw [Bool.eq_false_iff, ne_eq, isDigit_iff]
    have hrange := isUpper_iff.mp hfirst
    omega
  rw [ofLabel?_eq, String.toList_ofList, pascalChars, if_pos (isAlphanum_of_isUpper hfirst),
    if_pos rfl, toUpper_of_isUpper hfirst, pascalChars_of_all hrest]
  simp only [hdigit, Bool.false_eq_true, if_false]

/-- A type name can be written bare. -/
theorem isBare_of_isTypeName {name : String} (h : isTypeName name = true) : isBare name = true := by
  obtain ⟨first, rest, rfl, hfirst, hrest⟩ := exists_of_isTypeName h
  have hdigit : first.isDigit = false := by
    rw [Bool.eq_false_iff, ne_eq, isDigit_iff]
    have := isUpper_iff.mp hfirst
    omega
  have hpart {c : Char} (hc : c.isAlphanum = true) : isPart c = true := by
    rw [isPart, hc, Bool.true_or, Bool.true_or]
  rw [isBare, String.toList_ofList]
  dsimp only
  rw [hpart (isAlphanum_of_isUpper hfirst), hdigit, Bool.not_false, Bool.true_and, Bool.true_and,
    List.all_eq_true]
  exact fun c hc => hpart (List.all_eq_true.mp hrest c hc)

end TypeGraph.Identifier
