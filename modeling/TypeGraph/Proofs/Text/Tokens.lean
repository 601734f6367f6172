import TypeGraph.Json.Token
import TypeGraph.Literal
import TypeGraph.Text.Identifier
import TypeGraph.Proofs.Number.Written

/-!
# Tokens of source text

Emitted source text as words, quoted texts and marks. Spaces and line ends stand between tokens and
mean nothing. What is written for a quoted text, a name or a literal is one token again, whatever
follows it.

Main results:

* `Source.unquote_flatMap_escape`: a text between quotes is read as it was.
* `Source.tokens_name`, `Source.tokens_quote`: names and quoted texts are tokens.
* `Source.Lexes.intercalate`: texts with separators between them are read one after the other.
-/

namespace TypeGraph.Source

/-- A token of source text. -/
inductive Token where
  /-- A name or a number. -/
  | word (text : String)
  /-- A text between quotes. -/
  | quoted (text : String)
  /-- Any other character. -/
  | mark (c : Char)
  deriving DecidableEq

/-! ## Quoted text -/

/-- The text up to the closing quote, its escapes undone, and what follows the quote. -/
def unquote : List Char → Option (List Char × List Char)
  | [] => none
  | '"' :: rest => some ([], rest)
  | '\\' :: 'u' :: a :: b :: c :: d :: rest => do
    let code ← Json.hexValue4? a b c d
    (unquote rest).map fun read => (Char.ofNat code :: read.1, read.2)
  | '\\' :: c :: rest => do
    let c ← Json.escaped? c
    (unquote rest).map fun read => (c :: read.1, read.2)
  | c :: rest => (unquote rest).map fun read => (c :: read.1, read.2)

/-- What follows a quoted text is shorter than the text. -/
theorem length_of_unquote {text : List Char} {read : List Char × List Char}
    (h : unquote text = some read) : read.2.length < text.length := by
  -- along the escapes: each takes at least one character more than what it leaves
  fun_induction unquote text generalizing read with
  | case1 => cases h
  | case2 tail =>
    cases h
    exact Nat.lt_succ_self _
  | case3 a b c d tail ih =>
    obtain ⟨code, -, hread⟩ := Option.bind_eq_some_iff.mp h
    obtain ⟨after, hafter, rfl⟩ := Option.map_eq_some_iff.mp hread
    have := ih hafter
    simp only [List.length_cons]
    omega
  | case4 c tail hc ih =>
    obtain ⟨escaped, -, hread⟩ := Option.bind_eq_some_iff.mp h
    obtain ⟨after, hafter, rfl⟩ := Option.map_eq_some_iff.mp hread
    have := ih hafter
    simp only [List.length_cons]
    omega
  | case5 c tail _ _ _ ih =>
    obtain ⟨after, hafter, rfl⟩ := Option.map_eq_some_iff.mp h
    have := ih hafter
    simp only [List.length_cons]
    omega

theorem hexValue4?_hexDigit : ∀ n : Fin 32,
    Json.hexValue4? '0' '0' (Quoted.hexDigit (n / 16)) (Quoted.hexDigit (n % 16)) = some n.val := by
  decide

/-- What is written for a character between quotes is read as the character. -/
theorem unquote_escape (c : Char) (rest : List Char) : unquote (Quoted.escape c ++ rest) =
    (unquote rest).map fun read => (c :: read.1, read.2) := by
  unfold Quoted.escape
  split_ifs with hquote hbackslash hb ht hn hf hr hcontrol
  · subst hquote; rfl
  · subst hbackslash; rfl
  · subst hb; rfl
  · subst ht; rfl
  · subst hn; rfl
  · subst hf; rfl
  · subst hr; rfl
  · have hcode := hexValue4?_hexDigit ⟨c.toNat, hcontrol⟩
    simp only [List.cons_append, List.nil_append, unquote, hcode]
    rw [Option.bind_eq_bind, Option.bind_some, Char.ofNat_toNat]
  · -- any other character stands for itself
    rw [List.singleton_append, unquote]
    all_goals simp_all

/-- A text between quotes is read as it was. -/
theorem unquote_flatMap_escape (text rest : List Char) :
    unquote (text.flatMap Quoted.escape ++ '"' :: rest) = some (text, rest) := by
  induction text with
  | nil => rfl
  | cons c text ih =>
    rw [List.flatMap_cons, List.append_assoc, unquote_escape, ih]
    rfl

/-! ## Tokens -/

/-- Whether a word with a first character goes on with another one. Only numbers, which start with a
digit or a minus sign, have points and signs in them. -/
def continues (first c : Char) : Bool :=
  Identifier.isPart c || (first.isDigit || first == '-') && (c == '.' || c == '+' || c == '-')

/-- The tokens of a text. A quote that is not closed is a mark. -/
def tokens : List Char → List Token
  | [] => []
  | c :: rest =>
    if c = ' ' || c = '\n' then tokens rest
    else if c = '"' then
      -- what is read next is shorter, however long the quoted text is
      match _h : unquote rest with
      | some read => .quoted (String.ofList read.1) :: tokens read.2
      | none => .mark c :: tokens rest
    else if Identifier.isPart c || c = '-' then
      .word (String.ofList (c :: rest.takeWhile (continues c))) ::
        tokens (rest.dropWhile (continues c))
    else .mark c :: tokens rest
  termination_by text => text.length
  decreasing_by
    · exact Nat.lt_succ_self _
    · exact Nat.lt_succ_of_lt (length_of_unquote _h)
    · exact Nat.lt_succ_self _
    · exact Nat.lt_succ_of_le (List.dropWhile_suffix _).length_le
    · exact Nat.lt_succ_self _

theorem tokens_nil : tokens [] = [] := by rw [tokens]

/-- Spaces and line ends are skipped. -/
theorem tokens_space {c : Char} (h : c = ' ' ∨ c = '\n') (rest : List Char) :
    tokens (c :: rest) = tokens rest := by
  rw [tokens, if_pos]
  simpa using h

/-- Whether a character is a token on its own: it is no part of a word, no quote and no space. -/
def isMark (c : Char) : Bool :=
  !(Identifier.isPart c || c == '-' || c == '"' || c == ' ' || c == '\n')

theorem tokens_mark {c : Char} (h : isMark c = true) (rest : List Char) :
    tokens (c :: rest) = .mark c :: tokens rest := by
  simp only [isMark, Bool.not_eq_true', Bool.or_eq_false_iff, beq_eq_false_iff_ne, ne_eq] at h
  obtain ⟨⟨⟨⟨hpart, hminus⟩, hquote⟩, hspace⟩, hline⟩ := h
  rw [tokens, if_neg (by simp [hspace, hline]), if_neg hquote, if_neg (by simp [hpart, hminus])]

theorem tokens_spaces (count : Nat) (rest : List Char) :
    tokens (List.replicate count ' ' ++ rest) = tokens rest := by
  induction count with
  | zero => rfl
  | succ count ih => rw [List.replicate_succ, List.cons_append, tokens_space (.inl rfl), ih]

/-- What is written for a quoted text is one token. -/
theorem tokens_quote (text : String) (rest : List Char) :
    tokens ((Quoted.quote text).toList ++ rest) = .quoted text :: tokens rest := by
  have hread : unquote ((text.toList.flatMap Quoted.escape ++ ['"']) ++ rest) =
      some (text.toList, rest) := by
    rw [List.append_assoc]
    exact unquote_flatMap_escape text.toList rest
  rw [Quoted.quote, String.toList_ofList, Quoted.encode, List.cons_append, List.cons_append, tokens,
    if_neg (by decide), if_pos rfl]
  split
  · rename_i read heq
    obtain rfl := Option.some.inj (hread.symm.trans heq)
    rw [String.ofList_toList]
  · rename_i heq
    rw [hread] at heq
    cases heq

/-! ## Words -/

/-- Whether a text is one word. -/
def isWord : List Char → Bool
  | [] => false
  | first :: rest => (Identifier.isPart first || first == '-') && rest.all (continues first)

theorem takeWhile_eq_nil {p : Char → Bool} {rest : List Char} (h : ∀ c ∈ rest.head?, p c = false) :
    rest.takeWhile p = [] ∧ rest.dropWhile p = rest := by
  cases rest with
  | nil => exact ⟨rfl, rfl⟩
  | cons c rest => rw [List.takeWhile_cons, List.dropWhile_cons, h c rfl]; exact ⟨rfl, rfl⟩

/-- A word is one token if it does not go on with what follows. -/
theorem tokens_word {first : Char} {more rest : List Char} (h : isWord (first :: more) = true)
    (hrest : ∀ c ∈ rest.head?, continues first c = false) :
    tokens (first :: more ++ rest) = .word (String.ofList (first :: more)) :: tokens rest := by
  rw [isWord, Bool.and_eq_true, List.all_eq_true] at h
  obtain ⟨hfirst, hmore⟩ := h
  -- the first character of a word is read as nothing else
  have hspace : ¬(decide (first = ' ') || decide (first = '\n')) = true := by
    rintro hspace
    rw [Bool.or_eq_true, decide_eq_true_eq, decide_eq_true_eq] at hspace
    rcases hspace with rfl | rfl <;> exact absurd hfirst (by decide)
  have hquote : first ≠ '"' := by
    rintro rfl
    exact absurd hfirst (by decide)
  -- the word goes on to its end and not beyond
  obtain ⟨htake, hdrop⟩ := takeWhile_eq_nil hrest
  rw [List.cons_append, tokens, if_neg hspace, if_neg hquote, if_pos (by simpa using hfirst),
    List.takeWhile_append_of_pos hmore, List.dropWhile_append_of_pos hmore, htake, hdrop,
    List.append_nil]

/-- No name goes on with what follows. -/
def NameEnds (rest : List Char) : Prop := ∀ c ∈ rest.head?, Identifier.isPart c = false

/-- A bare name is one token. -/
theorem tokens_name {name : String} (h : Identifier.isBare name = true) {rest : List Char}
    (hrest : NameEnds rest) : tokens (name.toList ++ rest) = .word name :: tokens rest := by
  unfold Identifier.isBare at h
  split at h
  · cases h
  · rename_i first more hname
    rw [Bool.and_eq_true, Bool.and_eq_true, Bool.not_eq_true'] at h
    obtain ⟨⟨hfirst, hdigit⟩, hmore⟩ := h
    -- a name is no number, so a point or a sign ends it
    have hminus : (first == '-') = false := by
      rw [beq_eq_false_iff_ne]
      rintro rfl
      exact absurd hfirst (by decide)
    have hcontinues (c : Char) : continues first c = Identifier.isPart c := by
      rw [continues, hdigit, hminus]
      exact Bool.or_false _
    have hword : isWord (first :: more) = true := by
      rw [isWord, hfirst, Bool.true_or, Bool.true_and, List.all_congr rfl fun c => hcontinues c]
      exact hmore
    rw [hname, tokens_word hword fun c hc => (hcontinues c).trans (hrest c hc), ← hname,
      String.ofList_toList]

/-- What a property name is written as. -/
def keyToken (name : String) : Token := if Identifier.isBare name then .word name else .quoted name

/-- The property name that a token is. -/
def Token.key? : Token → Option String
  | .word name => some name
  | .quoted name => some name
  | .mark _ => none

theorem key?_keyToken (name : String) : (keyToken name).key? = some name := by
  unfold keyToken
  split <;> rfl

theorem keyToken_ne_mark (name : String) (c : Char) : keyToken name ≠ .mark c := by
  unfold keyToken
  split <;> exact fun h => Token.noConfusion h

theorem tokens_propertyKey (name : String) {rest : List Char} (hrest : NameEnds rest) :
    tokens ((Identifier.propertyKey name).toList ++ rest) = keyToken name :: tokens rest := by
  unfold Identifier.propertyKey keyToken
  split
  · exact tokens_name ‹_› hrest
  · exact tokens_quote name rest

/-- No word goes on with what follows. -/
def Ends (rest : List Char) : Prop :=
  ∀ c ∈ rest.head?, Identifier.isPart c = false ∧ c ≠ '.' ∧ c ≠ '+' ∧ c ≠ '-'

theorem Ends.nameEnds {rest : List Char} (h : Ends rest) : NameEnds rest := fun c hc => (h c hc).1

theorem Ends.continues {rest : List Char} (h : Ends rest) (first : Char) :
    ∀ c ∈ rest.head?, Source.continues first c = false := by
  intro c hc
  obtain ⟨hpart, hpoint, hplus, hminus⟩ := h c hc
  rw [Source.continues, hpart, beq_eq_false_iff_ne.mpr hpoint, beq_eq_false_iff_ne.mpr hplus,
    beq_eq_false_iff_ne.mpr hminus, Bool.or_self, Bool.or_self, Bool.and_false, Bool.or_self]

theorem ends_nil : Ends [] := fun _ h => absurd h (Option.not_mem_none _)

theorem ends_cons {c : Char} (h : Identifier.isPart c = false ∧ c ≠ '.' ∧ c ≠ '+' ∧ c ≠ '-')
    (rest : List Char) : Ends (c :: rest) := by
  intro c' hc
  cases hc
  exact h

/-! ## Texts that are read whole -/

/-- A text is read as some tokens, whatever follows where a word may end. -/
def Lexes (text : String) (read : List Token) : Prop :=
  ∀ rest, Ends rest → tokens (text.toList ++ rest) = read ++ tokens rest

/-- A text is read as some tokens, whatever follows. -/
def Leads (text : String) (read : List Token) : Prop :=
  ∀ rest, tokens (text.toList ++ rest) = read ++ tokens rest

/-- Besides, a word may end where the text starts. -/
structure Delimits (text : String) (read : List Token) : Prop where
  leads : Leads text read
  ends : ∀ rest, Ends (text.toList ++ rest)

theorem Leads.lexes {text : String} {read : List Token} (h : Leads text read) : Lexes text read :=
  fun rest _ => h rest

/-- Whether a word ends before the character: it is a mark that no number has in it, or stands
between tokens. -/
def isDelimiter (c : Char) : Bool := isMark c && c != '.' && c != '+' || c == ' ' || c == '\n'

theorem isDelimiter_iff {c : Char} :
    isDelimiter c = true ↔ (isMark c = true ∧ c ≠ '.' ∧ c ≠ '+') ∨ c = ' ' ∨ c = '\n' := by
  simp only [isDelimiter, Bool.or_eq_true, Bool.and_eq_true, bne_iff_ne, beq_iff_eq, and_assoc,
    or_assoc, ne_eq]

/-- Marks and spaces delimit. -/
theorem delimits_marks {text : String} (hne : text.toList ≠ [])
    (h : text.toList.all isDelimiter = true) :
    Delimits text ((text.toList.filter isMark).map .mark) := by
  simp only [List.all_eq_true, isDelimiter_iff] at h
  constructor
  · -- spaces are passed over, and every mark is a token
    intro rest
    generalize text.toList = chars at h
    induction chars with
    | nil => rfl
    | cons c chars ih =>
      rw [List.forall_mem_cons] at h
      rcases h.1 with ⟨hmark, -⟩ | hspace
      · rw [List.cons_append, tokens_mark hmark, List.filter_cons_of_pos hmark, ih h.2]
        rfl
      · have hmark : ¬ isMark c = true := by rcases hspace with rfl | rfl <;> decide
        rw [List.cons_append, tokens_space hspace, List.filter_cons_of_neg hmark, ih h.2]
  · -- the first character ends a word, whether it is a mark or a space
    intro rest
    obtain ⟨first, more, htext⟩ := List.exists_cons_of_ne_nil hne
    rw [htext]
    refine ends_cons ?_ (more ++ rest)
    rcases h first (htext ▸ List.mem_cons_self) with ⟨hmark, hpoint, hplus⟩ | rfl | rfl
    · simp only [isMark, Bool.not_eq_true', Bool.or_eq_false_iff, beq_eq_false_iff_ne,
        ne_eq] at hmark
      exact ⟨hmark.1.1.1.1, hpoint, hplus, hmark.1.1.1.2⟩
    · decide
    · decide

theorem Leads.append {first second : String} {read read' : List Token} (h : Leads first read)
    (h' : Lexes second read') : Lexes (first ++ second) (read ++ read') := by
  intro rest hrest
  rw [String.toList_append, List.append_assoc, List.append_assoc, h, h' rest hrest]

theorem Leads.append_leads {first second : String} {read read' : List Token} (h : Leads first read)
    (h' : Leads second read') : Leads (first ++ second) (read ++ read') := by
  intro rest
  rw [String.toList_append, List.append_assoc, List.append_assoc, h, h']

theorem Lexes.append {first second : String} {read read' : List Token} (h : Lexes first read)
    (h' : Delimits second read') : Leads (first ++ second) (read ++ read') := by
  intro rest
  rw [String.toList_append, List.append_assoc, List.append_assoc, h _ (h'.ends rest), h'.leads]

theorem Leads.join {texts : List String} {reads : List (List Token)}
    (h : List.Forall₂ Leads texts reads) : Leads (String.join texts) reads.flatten := by
  intro rest
  rw [String.toList_join]
  induction h with
  | nil => rfl
  | cons hfirst _ ih =>
    rw [List.flatMap_cons, List.flatten_cons, List.append_assoc, List.append_assoc, hfirst, ih]

theorem Lexes.name {name : String} (h : Identifier.isBare name = true) : Lexes name [.word name] :=
  fun _ hrest => tokens_name h hrest.nameEnds

theorem Lexes.propertyKey (name : String) : Lexes (Identifier.propertyKey name) [keyToken name] :=
  fun _ hrest => tokens_propertyKey name hrest.nameEnds

/-- Texts with delimiters between them are read one after the other. -/
theorem Lexes.intercalate {separator : String} {marks : List Token}
    (hseparator : Delimits separator marks) {texts : List String} {reads : List (List Token)}
    (h : List.Forall₂ Lexes texts reads) :
    Lexes (separator.intercalate texts) (marks.intercalate reads) := by
  intro rest hrest
  rw [String.toList_intercalate]
  induction h with
  | nil => rfl
  | @cons text read texts reads hfirst hmore ih =>
    -- the first text ends before what follows all of them, or before the separator
    cases hmore with
    | nil =>
      rw [List.map_singleton, List.intercalate_singleton, List.intercalate_singleton]
      exact hfirst rest hrest
    | cons =>
      rw [List.map_cons] at ih ⊢
      rw [List.map_cons, List.intercalate_cons_cons, List.intercalate_cons_cons]
      simp only [List.append_assoc]
      rw [hfirst _ (hseparator.ends _), hseparator.leads, ih]

end TypeGraph.Source
