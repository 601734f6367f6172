import TypeGraph.Proofs.Text.TypeName

/-!
# Identifiers and the words of labels

A label is read as words of ASCII letters and digits, with any other characters between them; its
identifier is made of the capitalised words, and of a `T` in front if the first of them starts with
a digit. Nothing else of the label is lost or changed, and an identifier is derived from itself, so
that names stay as they are when they are read again.

Main results:

* `Identifier.pascalChars_eq`: the walk over a label capitalises its words.
* `Identifier.ofLabel?_canonical`: which labels have an identifier, and which one.
-/

namespace TypeGraph.Identifier

/-- The words of a label; between two separators there is an empty one. -/
def words (label : String) : List (List Char) := label.toList.splitOnP fun c => !c.isAlphanum

/-- A word with its first letter in upper case. -/
def capitalize : List Char → List Char
  | [] => []
  | c :: rest => c.toUpper :: rest

/-! ## Words -/

/-- What is left of a list that is split is everything but the separators. -/
theorem flatten_splitOnP (p : Char → Bool) (chars : List Char) :
    (chars.splitOnP p).flatten = chars.filter fun c => !p c := by
  induction chars with
  | nil => rfl
  | cons c rest ih =>
    rw [List.splitOnP_cons_eq_if_modifyHead, List.filter_cons, ← ih]
    obtain ⟨word, others, hsplit⟩ := List.exists_cons_of_ne_nil (List.splitOnP_ne_nil p rest)
    cases hp : p c <;> simp [hsplit]

theorem flatten_words (label : String) :
    (words label).flatten = label.toList.filter Char.isAlphanum := by
  rw [words, flatten_splitOnP]
  simp

/-- The walk over a label capitalises its words; a walk that starts inside a word leaves the rest of
that word as it is. -/
theorem pascalChars_of_splitOnP {chars word : List Char} {others : List (List Char)}
    (h : (chars.splitOnP fun c => !c.isAlphanum) = word :: others) (wordStarts : Bool) :
    pascalChars wordStarts chars =
      (if wordStarts then capitalize word else word) ++ others.flatMap capitalize := by
  induction chars generalizing word others wordStarts with
  | nil =>
    obtain ⟨rfl, rfl⟩ : [] = word ∧ [] = others := by simpa using h
    cases wordStarts <;> rfl
  | cons c rest ih =>
    obtain ⟨next, more, hsplit⟩ :=
      List.exists_cons_of_ne_nil (List.splitOnP_ne_nil (fun c => !c.isAlphanum) rest)
    rw [List.splitOnP_cons_eq_if_modifyHead, hsplit] at h
    rw [pascalChars]
    cases hc : c.isAlphanum with
    | true =>
      -- the character is the first of its word, or follows in the same word
      obtain ⟨rfl, rfl⟩ : c :: next = word ∧ more = others := by simpa [hc] using h
      rw [if_pos rfl, ih hsplit false]
      cases wordStarts <;> rfl
    | false =>
      -- a separator ends an empty word
      obtain ⟨rfl, rfl⟩ : [] = word ∧ next :: more = others := by simpa [hc] using h
      rw [if_neg Bool.false_ne_true, ih hsplit true]
      cases wordStarts <;> rfl

theorem pascalChars_eq (label : String) :
    pascalChars true label.toList = (words label).flatMap capitalize := by
  obtain ⟨word, others, hsplit⟩ :=
    List.exists_cons_of_ne_nil (List.splitOnP_ne_nil (fun c => !c.isAlphanum) label.toList)
  rw [pascalChars_of_splitOnP hsplit, words, hsplit]
  rfl

/-! ## The first character -/

theorem isDigit_toUpper (c : Char) : c.toUpper.isDigit = c.isDigit := by
  rw [Bool.eq_iff_iff, isDigit_iff, isDigit_iff, toNat_toUpper]
  split <;> omega

theorem toUpper_of_isDigit {c : Char} (h : c.isDigit = true) : c.toUpper = c := by
  have hrange := isDigit_iff.mp h
  apply Char.toNat_inj.mp
  rw [toNat_toUpper, if_neg]
  omega

/-- The first character is the first letter or digit of the label, in upper case. -/
theorem head_pascalChars_eq (chars : List Char) :
    (pascalChars true chars).head? = (chars.find? Char.isAlphanum).map Char.toUpper := by
  induction chars with
  | nil => rfl
  | cons c rest ih =>
    rw [pascalChars, List.find?_cons]
    cases hc : c.isAlphanum with
    | true => rfl
    | false => simpa using ih

/-- A `T` stands in front of a name whose first letter or digit is a digit. -/
def lead (label : String) : List Char :=
  if (label.toList.find? Char.isAlphanum).any Char.isDigit then ['T'] else []

theorem ofLabel?_eq_some_iff {label name : String} :
    ofLabel? label = some name ↔
      (∃ c ∈ label.toList, c.isAlphanum = true) ∧
        name.toList = lead label ++ (words label).flatMap capitalize := by
  have hhead := head_pascalChars_eq label.toList
  rw [ofLabel?_eq, lead, ← pascalChars_eq]
  -- the name is empty exactly if no character is a letter or digit, and otherwise starts with the
  -- first that is
  cases hchars : pascalChars true label.toList with
  | nil =>
    rw [hchars, eq_comm, List.head?_nil, Option.map_eq_none_iff, List.find?_eq_none] at hhead
    simp only [reduceCtorEq, false_iff, not_and]
    rintro ⟨c, hc, halphanum⟩
    exact absurd halphanum (hhead c hc)
  | cons first rest =>
    rw [hchars, eq_comm, List.head?_cons, Option.map_eq_some_iff] at hhead
    obtain ⟨c, hfind, rfl⟩ := hhead
    have hexists : ∃ c ∈ label.toList, c.isAlphanum = true :=
      ⟨c, List.mem_of_find?_eq_some hfind, List.find?_some hfind⟩
    rw [hfind, Option.any_some]
    simp only [hexists, true_and, Option.some.injEq, isDigit_toUpper]
    rw [← String.toList_inj, String.toList_ofList, eq_comm]
    cases c.isDigit <;> rfl

theorem ofLabel?_eq_none_iff {label : String} :
    ofLabel? label = none ↔ ∀ c ∈ label.toList, c.isAlphanum = false := by
  constructor
  · intro h c hc
    -- otherwise the words would make a name
    rw [← Bool.not_eq_true]
    intro halphanum
    have hname :
        ofLabel? label = some (String.ofList (lead label ++ (words label).flatMap capitalize)) :=
      ofLabel?_eq_some_iff.mpr ⟨⟨c, hc, halphanum⟩, String.toList_ofList⟩
    rw [h] at hname
    cases hname
  · intro h
    cases hname : ofLabel? label with
    | none => rfl
    | some name =>
      obtain ⟨⟨c, hc, halphanum⟩, -⟩ := ofLabel?_eq_some_iff.mp hname
      rw [h c hc] at halphanum
      cases halphanum

/-! ## Identifiers -/

/-- What is derived is in Pascal case already, and stays so. -/
theorem pascalCase_pascalCase (label : String) :
    pascalCase (pascalCase label) = pascalCase label := by
  rw [← String.toList_inj, toList_pascalCase, toList_pascalCase]
  have hall := all_pascalChars true label.toList
  cases hchars : pascalChars true label.toList with
  | nil => rfl
  | cons first rest =>
    rw [hchars, List.all_cons, Bool.and_eq_true] at hall
    have hupper : first.toUpper = first := by
      rcases head_pascalChars hchars with hfirst | hfirst
      · exact toUpper_of_isUpper hfirst
      · exact toUpper_of_isDigit hfirst
    rw [pascalChars, if_pos hall.1, if_pos rfl, hupper, pascalChars_of_all hall.2]

/-- The name is an identifier that is made of the words of the label, and of itself. -/
structure DerivedFrom (label name : String) : Prop where
  typeName : isTypeName name = true
  bare : isBare name = true
  chars : name.toList = lead label ++ (words label).flatMap capitalize
  stable : ofLabel? name = some name

theorem derivedFrom_of_ofLabel? {label name : String} (h : ofLabel? label = some name) :
    DerivedFrom label name where
  typeName := isTypeName_of_ofLabel? h
  bare := isBare_of_isTypeName (isTypeName_of_ofLabel? h)
  chars := (ofLabel?_eq_some_iff.mp h).2
  stable := ofLabel?_of_isTypeName (isTypeName_of_ofLabel? h)

/-- A label without ASCII letters and digits has no identifier. Any other has one, which is a type
name, can be written bare, is made of the capitalised words of the label with at most a `T` in
front, and is its own identifier. The words hold the letters and digits of the label, in order.
Pascal case is the capitalised words, also where the label is left as it is, and doing it again
changes nothing. -/
theorem ofLabel?_canonical (label : String) :
    (ofLabel? label = none ↔ ∀ c ∈ label.toList, c.isAlphanum = false) ∧
    (∀ name, ofLabel? label = some name → DerivedFrom label name) ∧
    (words label).flatten = label.toList.filter Char.isAlphanum ∧
    (pascalCase label).toList = (words label).flatMap capitalize ∧
    pascalCase (pascalCase label) = pascalCase label := by
  refine ⟨ofLabel?_eq_none_iff, ?_, flatten_words label, ?_, pascalCase_pascalCase label⟩
  · intro name h
    exact derivedFrom_of_ofLabel? h
  · rw [toList_pascalCase, pascalChars_eq]

/-- A label that starts with a digit and has two words. -/
theorem point_derived :
    ofLabel? "2d-point" = some "T2dPoint" ∧ DerivedFrom "2d-point" "T2dPoint" := by
  have hname : ofLabel? "2d-point" = some "T2dPoint" := by decide
  exact ⟨hname, (ofLabel?_canonical "2d-point").2.1 "T2dPoint" hname⟩

end TypeGraph.Identifier
