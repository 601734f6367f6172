import TypeGraph.Json.Printer
import TypeGraph.Json.Reader
import TypeGraph.Proofs.Lists
import TypeGraph.Proofs.Text.Literals

/-!
# Documents are read as they are printed

The compact text of a document is split into its tokens, whatever follows behind a delimiter. From
the tokens the document is read, whatever brackets are open around it.

Main results:

* `Json.scans_chars`: the tokens of a printed document.
* `Json.ofText?_text`: a printed document is read as itself.
-/

namespace TypeGraph.Json

/-- Documents that can be printed and decoded whole: their numerals are as the grammar has them and
have a value, and their strings have characters. -/
inductive Regular : Json → Prop
  | null : Regular null
  | bool (value : Bool) : Regular (bool value)
  | number {numeral : Numeral} (wellFormed : numeral.WellFormed)
      (valued : numeral.value?.isSome = true) :
    Regular (number numeral)
  | string (text : String) : Regular (string text)
  | array {elements : List Json} (helements : ∀ element ∈ elements, Regular element) :
      Regular (array elements)
  | object {entries : List (String × Json)} (hentries : ∀ entry ∈ entries, Regular entry.2) :
    Regular (object entries)

/-- The tokens of a document. -/
def tokens : Json → List Token
  | string text => [.string (some text)]
  | unpaired => [.string none]
  | array elements =>
    .openBracket :: ([.comma].intercalate (elements.map tokens) ++ [.closeBracket])
  | object entries =>
    .openBrace :: ([.comma].intercalate (entries.map fun entry =>
      .string (some entry.1) :: .colon :: entry.2.tokens) ++ [.closeBrace])
  | value => [.scalar value]
  termination_by value => sizeOf value
  decreasing_by
    all_goals simp only [array.sizeOf_spec, object.sizeOf_spec]
    · have := List.sizeOf_lt_of_mem ‹_ ∈ elements›; omega
    · have := sizeOf_snd_lt_of_mem ‹_ ∈ entries›; omega

/-! ## Scanning -/

section

open Token

/-- A word ends before the rest of a text. -/
def Ends (rest : List Char) : Prop :=
  ∀ c ∈ rest.head?, isSpace c = true ∨ (punctuation? c).isSome = true

theorem ends_nil : Ends [] := fun _ h => absurd h (Option.not_mem_none _)

theorem ends_mark {c : Char} {token : Token} (hc : punctuation? c = some token) (rest : List Char) :
    Ends (c :: rest) := by
  intro other ho
  cases ho
  exact .inr (by rw [hc]; rfl)

/-- The tokens of a text, whatever comes behind it. -/
def Scans (text : List Char) (read : List Token) : Prop :=
  ∀ rest, Ends rest → scan .between (text ++ rest) = (scan .between rest).map (read ++ ·)

theorem Scans.nil : Scans [] [] := fun rest _ => by simp

theorem scan_mark {c : Char} {token : Token} (hc : punctuation? c = some token) (rest : List Char) :
    scan .between (c :: rest) = (scan .between rest).map (token :: ·) := by
  have hspace : isSpace c = false := by
    rw [Bool.eq_false_iff]
    intro h
    simp only [isSpace, Bool.or_eq_true, beq_iff_eq] at h
    rcases h with ((rfl | rfl) | rfl) | rfl <;> cases hc
  have hquote : c ≠ '"' := by
    rintro rfl
    cases hc
  rw [scan, hspace, if_neg Bool.false_ne_true, if_neg hquote, hc]

theorem Scans.mark {text : List Char} {read : List Token} (h : Scans text read) {c : Char}
    {token : Token} (hc : punctuation? c = some token) : Scans (c :: text) (token :: read) := by
  intro rest hrest
  rw [List.cons_append, scan_mark hc, h rest hrest, Option.map_map]
  rfl

/-- Texts with a mark between them. -/
theorem Scans.append_mark {text text' : List Char} {read read' : List Token} (h : Scans text read)
    {c : Char} {token : Token} (hc : punctuation? c = some token) (h' : Scans text' read') :
    Scans (text ++ c :: text') (read ++ token :: read') := by
  intro rest hrest
  have hmark := h'.mark hc rest hrest
  rw [List.append_assoc, List.cons_append, h _ (ends_mark hc _), ← List.cons_append, hmark,
    Option.map_map]
  congr 1
  funext tokens
  simp

theorem Scans.enclosed {text : List Char} {read : List Token} (h : Scans text read)
    {opening closing : Char} {token token' : Token} (hopening : punctuation? opening = some token)
    (hclosing : punctuation? closing = some token') :
    Scans (opening :: (text ++ [closing])) (token :: (read ++ [token'])) :=
  (h.append_mark hclosing .nil).mark hopening

theorem Scans.intercalate {ι : Type} {items : List ι} {text : ι → List Char} {read : ι → List Token}
    (h : ∀ item ∈ items, Scans (text item) (read item)) :
    Scans ([','].intercalate (items.map text)) ([Token.comma].intercalate (items.map read)) := by
  induction items with
  | nil => exact .nil
  | cons item more ih =>
    rw [List.forall_mem_cons] at h
    cases more with
    | nil => simpa using h.1
    | cons second more =>
      have hcomma := h.1.append_mark (show punctuation? ',' = some .comma from rfl) (ih h.2)
      simpa [List.intercalate_cons_cons] using hcomma

/-! ### Strings -/

theorem join_map_char (text : List Char) : StringUnit.join (text.map .char) = some text := by
  induction text with
  | nil => rfl
  | cons c text ih => rw [List.map_cons, StringUnit.join, ih]; rfl

/-- What is written for a character between quotes is collected as the character. -/
theorem scan_escape (collected : List StringUnit) (c : Char) (rest : List Char) :
    scan (.text collected) (Quoted.escape c ++ rest) =
      scan (.text (.char c :: collected)) rest := by
  unfold Quoted.escape
  split_ifs with hquote hbackslash hb ht hn hf hr hcontrol
  -- the escapes with one letter
  · subst hquote; rfl
  · subst hbackslash; rfl
  · subst hb; rfl
  · subst ht; rfl
  · subst hn; rfl
  · subst hf; rfl
  · subst hr; rfl
  · -- four digits that are the code of the character, which is no half of a pair
    have hcode := Source.hexValue4?_hexDigit ⟨c.toNat, hcontrol⟩
    have hunit : StringUnit.ofNat c.toNat = .char c := by
      have hlow : ¬ 0xD800 ≤ c.toNat := by omega
      simp [StringUnit.ofNat, hlow]
    simp only [List.cons_append, List.nil_append, scan, hcode, hunit]
  · -- any other character stands for itself
    rw [List.singleton_append, scan]
    all_goals simp_all

theorem scan_text (collected : List StringUnit) (text rest : List Char) :
    scan (.text collected) (text.flatMap Quoted.escape ++ rest) =
      scan (.text ((text.map .char).reverse ++ collected)) rest := by
  induction text generalizing collected with
  | nil => rfl
  | cons c text ih => simp [scan_escape, ih]

theorem Scans.string (text : String) : Scans (Quoted.encode text.toList) [.string (some text)] := by
  intro rest _
  have hbetween : scan .between (Quoted.encode text.toList ++ rest) =
      scan (.text []) (text.toList.flatMap Quoted.escape ++ '"' :: rest) := by
    rw [Quoted.encode, List.cons_append, List.cons_append, scan]
    simp [isSpace]
  rw [hbetween, scan_text, scan]
  simp [join_map_char]

/-! ### Words -/

/-- A character that a word may have. -/
def isPlain (c : Char) : Bool := !isSpace c && c != '"' && (punctuation? c).isNone

theorem isPlain_iff {c : Char} :
    isPlain c = true ↔ isSpace c = false ∧ c ≠ '"' ∧ punctuation? c = none := by
  simp [isPlain, and_assoc]

theorem scan_word {word : List Char} (h : word.all isPlain = true) {rest : List Char}
    (hrest : Ends rest) (collected : List Char) {value : Json}
    (hvalue : scalar? (collected.reverse ++ word) = some value) :
    scan (.word collected) (word ++ rest) = (scan .between rest).map (Token.scalar value :: ·) := by
  induction word generalizing collected with
  | nil =>
    rw [List.append_nil] at hvalue
    cases rest with
    | nil => simp [scan, hvalue]
    | cons c rest =>
      cases hspace : isSpace c with
      | true => simp [scan, hspace, hvalue, Option.map_eq_bind]
      | false =>
        -- the word ends at a mark, which is a token of its own
        obtain ⟨token, hc⟩ :=
          Option.isSome_iff_exists.mp ((hrest c rfl).resolve_left (by simp [hspace]))
        rw [List.nil_append, scan_mark hc]
        simp [scan, hspace, hc, hvalue, Option.map_eq_bind, Option.bind_assoc]
  | cons c word ih =>
    rw [List.all_cons, Bool.and_eq_true, isPlain_iff] at h
    obtain ⟨⟨hspace, -, hmark⟩, hword⟩ := h
    rw [List.cons_append, scan, hspace, if_neg Bool.false_ne_true, hmark]
    exact ih hword (c :: collected) (by simpa using hvalue)

/-- A word is a value. -/
theorem Scans.word {word : List Char} (hne : word ≠ []) (h : word.all isPlain = true) {value : Json}
    (hvalue : scalar? word = some value) : Scans word [.scalar value] := by
  intro rest hrest
  obtain ⟨c, more, rfl⟩ := List.exists_cons_of_ne_nil hne
  rw [List.all_cons, Bool.and_eq_true, isPlain_iff] at h
  obtain ⟨⟨hspace, hquote, hmark⟩, hmore⟩ := h
  rw [List.cons_append, scan, hspace, if_neg Bool.false_ne_true, if_neg hquote, hmark]
  exact scan_word hmore hrest [c] hvalue

theorem isPlain_of_isNumeric {c : Char} (h : Source.isNumeric c = true) : isPlain c = true := by
  rw [isPlain_iff]
  refine ⟨?_, ?_, ?_⟩
  · rw [Bool.eq_false_iff]
    intro hspace
    simp only [isSpace, Bool.or_eq_true, beq_iff_eq] at hspace
    rcases hspace with ((rfl | rfl) | rfl) | rfl <;> exact absurd h (by decide)
  · rintro rfl
    exact absurd h (by decide)
  · unfold punctuation?
    split <;> first | rfl | exact absurd h (by decide)

/-- A numeral is none of the named values. -/
theorem Scans.numeral {numeral : Numeral} (h : numeral.WellFormed) :
    Scans numeral.text.toList [.scalar (number numeral)] := by
  have hnumeric := Numeral.numeric_text h
  obtain ⟨first, rest, htext, hfirst⟩ := hnumeric.first
  -- the named values start with letters
  have hne (word : String) (hword : ∀ c ∈ word.toList.head?, c.isDigit = false ∧ c ≠ '-') :
      numeral.text.toList ≠ word.toList := by
    intro heq
    obtain ⟨hdigit, hminus⟩ := hword first (by rw [← heq, htext]; rfl)
    rcases hfirst with h | h
    · rw [hdigit] at h
      cases h
    · exact hminus h
  refine .word (htext ▸ List.cons_ne_nil first rest) ?_ ?_
  · rw [List.all_eq_true]
    exact fun c hc => isPlain_of_isNumeric (hnumeric.all c hc)
  · rw [scalar?, if_neg (hne "null" (by simp)), if_neg (hne "true" (by simp)),
      if_neg (hne "false" (by simp)), Numeral.ofChars?_text h]
    rfl

/-! ### Documents -/

theorem chars_array (elements : List Json) :
    chars (array elements) = '[' :: ([','].intercalate (elements.map chars) ++ [']']) := by
  have helements (first : List Char) (rest : List Json) :
      first ++ charsOfElements rest = [','].intercalate (first :: rest.map chars) := by
    induction rest generalizing first with
    | nil => simp [charsOfElements.eq_def]
    | cons element rest ih =>
      rw [charsOfElements.eq_def]
      simp [List.intercalate_cons_cons, ih]
  rw [chars.eq_def]
  cases elements with
  | nil => rfl
  | cons first rest =>
    dsimp only
    rw [List.cons_append, List.cons_append, helements, List.map_cons]

theorem chars_object (entries : List (String × Json)) :
    chars (object entries) =
      '{' :: ([','].intercalate (entries.map fun entry =>
        Quoted.encode entry.1.toList ++ ':' :: chars entry.2) ++ ['}']) := by
  have hentries (first : List Char) (rest : List (String × Json)) :
      first ++ charsOfEntries rest = [','].intercalate (first :: rest.map fun entry =>
        Quoted.encode entry.1.toList ++ ':' :: chars entry.2) := by
    induction rest generalizing first with
    | nil => simp [charsOfEntries.eq_def]
    | cons entry rest ih =>
      rw [charsOfEntries.eq_def]
      simp [List.intercalate_cons_cons, ih]
  rw [chars.eq_def]
  cases entries with
  | nil => rfl
  | cons first rest =>
    dsimp only
    rw [List.map_cons, ← hentries]
    simp

/-- The tokens of a printed document. -/
theorem Regular.scans_chars {json : Json} (h : json.Regular) : Scans json.chars json.tokens := by
  -- words and numerals end where the rest begins; the brackets and commas of the others are marks
  induction h with
  | null =>
    rw [chars.eq_def, tokens]
    · exact .word (by decide) (by decide) rfl
    all_goals simp
  | bool value =>
    rw [chars.eq_def, tokens]
    · cases value <;> exact .word (by decide) (by decide) rfl
    all_goals simp
  | number wellFormed _ =>
    rw [chars.eq_def, tokens]
    · exact .numeral wellFormed
    all_goals simp
  | string text =>
    rw [chars.eq_def, tokens]
    exact .string text
  | array _ ih =>
    rw [chars_array, tokens]
    exact (Scans.intercalate ih).enclosed rfl rfl
  | object _ ih =>
    rw [chars_object, tokens]
    refine (Scans.intercalate fun entry hentry => ?_).enclosed rfl rfl
    exact (Scans.string entry.1).append_mark rfl (ih entry hentry)

end

/-! ## Reading -/

/-- The tokens are read as the document, whatever brackets are open around it. -/
def Yields (read : List Token) (json : Json) : Prop :=
  ∀ stack rest, readValue stack (read ++ rest) = readAfter json stack rest

theorem intercalate_comma (first : List Token) (rest : List (List Token)) :
    [Token.comma].intercalate (first :: rest) = first ++ rest.flatMap fun read =>
      .comma :: read := by
  induction rest generalizing first with
  | nil => simp
  | cons second rest ih => rw [List.intercalate_cons_cons, ih]; simp

/-- The elements behind the first one are read up to the bracket. -/
theorem readAfter_elements {first : Json} {more : List Json}
    (h : ∀ element ∈ more, Yields element.tokens element) (done : List Json) (stack : List Frame)
    (rest : List Token) :
    readAfter first (.array done :: stack)
        ((more.flatMap fun element => .comma :: element.tokens) ++ .closeBracket :: rest) =
      readAfter (array (done.reverse ++ first :: more)) stack rest := by
  induction more generalizing first done with
  | nil => rw [List.flatMap_nil, List.nil_append, readAfter, List.reverse_cons]
  | cons second more ih =>
    rw [List.forall_mem_cons] at h
    rw [List.flatMap_cons, List.cons_append, List.cons_append, List.append_assoc, readAfter, h.1,
      ih h.2]
    simp

theorem objectOfEntries_map (entries : List (String × Json)) :
    objectOfEntries (entries.map fun entry => (some entry.1, entry.2)) = object entries := by
  have hkeys :
      (entries.map fun entry => (some entry.1, entry.2)).mapM (fun entry : Option String × Json =>
      entry.1.map fun key => (key, entry.2)) = some entries := by
    induction entries with
    | nil => rfl
    | cons entry rest ih =>
      rw [List.map_cons, List.mapM_cons, ih]
      rfl
  rw [objectOfEntries, hkeys]

/-- The entries behind the first one are read up to the brace. -/
theorem readAfter_entries {key : String} {value : Json} {more : List (String × Json)}
    (h : ∀ entry ∈ more, Yields entry.2.tokens entry.2) (done : List (String × Json))
    (stack : List Frame) (rest : List Token) :
    readAfter value
      (.object (done.reverse.map fun entry => (some entry.1, entry.2)) (some key) :: stack)
        ((more.flatMap fun entry => .comma :: .string (some entry.1) :: .colon :: entry.2.tokens) ++
          .closeBrace :: rest) =
      readAfter (object (done ++ (key, value) :: more)) stack rest := by
  induction more generalizing key value done with
  | nil =>
    rw [List.flatMap_nil, List.nil_append, readAfter, ← objectOfEntries_map]
    simp
  | cons entry more ih =>
    rw [List.forall_mem_cons] at h
    -- behind the comma the entry in hand counts as done
    have hrest := @ih entry.1 entry.2 h.2 (done ++ [(key, value)])
    simp only [List.flatMap_cons, List.cons_append, List.append_assoc]
    rw [readAfter, h.1]
    simpa using hrest

/-- No document starts with a bracket that closes. -/
theorem tokens_ne_closeBracket (json : Json) (rest : List Token) :
    ∃ first more, json.tokens ++ rest = first :: more ∧ first ≠ .closeBracket := by
  cases json <;>
  · rw [tokens.eq_def]
    exact ⟨_, _, rfl, Token.noConfusion⟩

theorem Regular.yields_tokens {json : Json} (h : json.Regular) : Yields json.tokens json := by
  intro stack rest
  induction h generalizing stack rest with
  | null | bool | number | string =>
    rw [tokens.eq_def]
    exact readValue.eq_def ..
  | @array elements _ ih =>
    rw [tokens, List.cons_append, List.append_assoc]
    cases elements with
    | nil => exact readValue.eq_def ..
    | cons first more =>
      rw [List.forall_mem_cons] at ih
      obtain ⟨token, others, htokens, hne⟩ := tokens_ne_closeBracket first
        ((more.flatMap fun element => .comma :: element.tokens) ++ .closeBracket :: rest)
      -- what follows the bracket is an element
      have hopen : readValue stack (.openBracket :: token :: others) =
          readValue (.array [] :: stack) (token :: others) := by
        rw [readValue]
        exact fun _ h => hne (List.cons.inj h).1
      rw [List.map_cons, intercalate_comma, List.flatMap_map, List.append_assoc,
        List.singleton_append, htokens, hopen, ← htokens, ih.1, readAfter_elements ih.2]
      rfl
  | @object entries _ ih =>
    rw [tokens, List.cons_append, List.append_assoc]
    cases entries with
    | nil => exact readValue.eq_def ..
    | cons entry more =>
      rw [List.forall_mem_cons] at ih
      rw [List.map_cons, intercalate_comma, List.flatMap_map, List.append_assoc,
        List.singleton_append, List.cons_append, List.cons_append, readValue, ih.1]
      exact readAfter_entries ih.2 [] stack rest

/-- A printed document is read as itself. -/
theorem Regular.ofText?_text {json : Json} (h : json.Regular) : ofText? json.text = some json := by
  -- no bracket is open around the document, and nothing comes behind it
  have hscan := h.scans_chars [] ends_nil
  have hread := h.yields_tokens [] []
  rw [List.append_nil] at hscan hread
  rw [ofText?, text, String.toList_ofList, hscan, Token.scan]
  simp [hread, readAfter]

end TypeGraph.Json
