import TypeGraph.Proofs.Text.Reader
import TypeGraph.Proofs.TypeExpr.Tokens

/-!
# Reading type expressions

A reader for the tokens of type expressions, by recursive descent: a type is members of a union, a
member is operands of an intersection, and an operand is a primary type with brackets behind it.
What is read from the text of a type is the canonical form of the type, so that types with one text
are the same.

Main results:

* `TypeExpr.Printable.reads`: from the tokens of a type its canonical form is read.
* `TypeExpr.canonical_eq_of_print_eq`: types with the same text have the same canonical form.
-/

namespace TypeGraph.TypeExpr

open Source

/-! ## The reader -/

/-- Whether parameters follow an opening parenthesis, and no type. -/
def opensParameters : List Token → Bool
  | .mark ')' :: _ => true
  | .word _ :: .mark ':' :: _ => true
  | _ => false

/-- The type that a word is. -/
def ofWord? (word : String) : Option TypeExpr :=
  match Keyword.ofText? word with
  | some k => some (keyword k)
  | none => if isName word then some (reference word []) else (Literal.ofWord? word).map literal

/-- Whether a question mark comes first, and what follows. -/
def readOptional : List Token → Bool × List Token
  | .mark '?' :: rest => (true, rest)
  | rest => (false, rest)

/-- What comes before the type of a property: its name and whether it is optional. -/
def readKey (readonly : Bool) (tokens : List Token) : Option ((String × Bool) × List Token) :=
  match if readonly then tokens.drop 1 else tokens with
  | key :: rest => do
    let name ← key.key?
    match readOptional rest with
    | (optional, .mark ':' :: rest) => some ((name, optional), rest)
    | _ => none
  | [] => none

/-- A type with the brackets that follow it. -/
def readBrackets (type : TypeExpr) : List Token → TypeExpr × List Token
  | .mark '[' :: .mark ']' :: rest => readBrackets (array type) rest
  | rest => (type, rest)

mutual

/-- A type of members that the operator joins. -/
def readJoin (readonly : Bool) (operator : Operator) (tokens : List Token) :
    Nat → Option (TypeExpr × List Token)
  | 0 => none
  | steps + 1 => do
    let (members, rest) ← readMembers readonly operator tokens steps
    return (operator.collapse members, rest)

/-- A member and further ones. -/
def readMembers (readonly : Bool) (operator : Operator) (tokens : List Token) :
    Nat → Option (List TypeExpr × List Token)
  | 0 => none
  | steps + 1 => do
    let (member, rest) ← match operator with
      | .union => readJoin readonly .intersection tokens steps
      | .intersection => readOperand readonly tokens steps
    let (members, rest) ← readMore readonly operator rest steps
    -- parentheses around a join with the same operator are read over
    return (operator.members member ++ members, rest)

/-- Further members, if the mark between members comes first. -/
def readMore (readonly : Bool) (operator : Operator) (tokens : List Token) :
    Nat → Option (List TypeExpr × List Token)
  | 0 => none
  | steps + 1 =>
    match tokens with
    | .mark c :: rest =>
      if c = operator.mark then readMembers readonly operator rest steps else some ([], tokens)
    | _ => some ([], tokens)

/-- A primary type with the brackets behind it. -/
def readOperand (readonly : Bool) (tokens : List Token) : Nat → Option (TypeExpr × List Token)
  | 0 => none
  | steps + 1 => do
    let (type, rest) ← readPrimary readonly tokens steps
    return readBrackets type rest

/-- A type that needs no parentheses, one in parentheses, or a function. -/
def readPrimary (readonly : Bool) (tokens : List Token) : Nat → Option (TypeExpr × List Token)
  | 0 => none
  | steps + 1 =>
    match tokens with
    | .quoted text :: rest => some (literal (.string text), rest)
    | .word name :: .mark '<' :: rest => do
      let (arguments, rest) ← readArguments readonly rest steps
      return (reference name arguments, rest)
    | .word word :: rest => do
      let type ← ofWord? word
      return (type, rest)
    | .mark '{' :: rest => do
      let (properties, rest) ← readProperties readonly rest steps
      return (object properties, rest)
    | .mark '[' :: rest => do
      let (elements, rest) ← readElements readonly rest steps
      return (tuple elements, rest)
    | .mark '(' :: rest =>
      -- a name in parentheses may be a type, and with a colon behind it is a parameter
      if opensParameters rest then do
        let (parameters, rest) ← readParameters readonly rest steps
        match rest with
        | .mark '=' :: .mark '>' :: rest => do
          let (returns, rest) ← readJoin readonly .union rest steps
          return (function parameters returns, rest)
        | _ => none
      else do
        let (type, rest) ← readJoin readonly .union rest steps
        match rest with
        | .mark ')' :: rest => some (type, rest)
        | _ => none
    | _ => none

/-- Arguments up to the angle that closes them. -/
def readArguments (readonly : Bool) (tokens : List Token) :
    Nat → Option (List TypeExpr × List Token)
  | 0 => none
  | steps + 1 => do
    let (type, rest) ← readJoin readonly .union tokens steps
    match rest with
    | .mark ',' :: rest => do
      let (more, rest) ← readArguments readonly rest steps
      return (type :: more, rest)
    | .mark '>' :: rest => some ([type], rest)
    | _ => none

/-- Properties up to the brace that closes them. -/
def readProperties (readonly : Bool) (tokens : List Token) :
    Nat → Option (List (String × Bool × TypeExpr) × List Token)
  | 0 => none
  | steps + 1 =>
    match tokens with
    | .mark '}' :: rest => some ([], rest)
    | tokens => do
      let ((name, optional), rest) ← readKey readonly tokens
      let (type, rest) ← readJoin readonly .union rest steps
      match rest with
      | .mark ';' :: rest => do
        let (more, rest) ← readProperties readonly rest steps
        return ((name, optional, type) :: more, rest)
      | _ => none

/-- Slots up to the bracket that closes them. -/
def readElements (readonly : Bool) (tokens : List Token) :
    Nat → Option (List (Bool × TypeExpr) × List Token)
  | 0 => none
  | steps + 1 =>
    match tokens with
    | .mark ']' :: rest => some ([], rest)
    | tokens => do
      let (type, rest) ← readJoin readonly .union tokens steps
      match readOptional rest with
      | (optional, .mark ',' :: rest) => do
        let (more, rest) ← readElements readonly rest steps
        return ((optional, type) :: more, rest)
      | (optional, .mark ']' :: rest) => some ([(optional, type)], rest)
      | _ => none

/-- Parameters up to the parenthesis that closes them. -/
def readParameters (readonly : Bool) (tokens : List Token) :
    Nat → Option (List (String × TypeExpr) × List Token)
  | 0 => none
  | steps + 1 =>
    match tokens with
    | .mark ')' :: rest => some ([], rest)
    | .word name :: .mark ':' :: rest => do
      let (type, rest) ← readJoin readonly .union rest steps
      match rest with
      | .mark ',' :: rest => do
        let (more, rest) ← readParameters readonly rest steps
        return ((name, type) :: more, rest)
      | .mark ')' :: rest => some ([(name, type)], rest)
      | _ => none
    | _ => none

end

/-! ## What is read at which place -/

/-- None of some marks comes first. -/
def Avoids (marks : List Char) (rest : List Token) : Prop :=
  ∀ c ∈ marks, rest.head? ≠ some (.mark c)

theorem avoids_nil (marks : List Char) : Avoids marks [] := fun _ _ => (Option.some_ne_none _).symm

theorem avoids_mark {marks : List Char} {c : Char} (h : c ∉ marks) (rest : List Token) :
    Avoids marks (.mark c :: rest) := by
  intro other hother heq
  cases heq
  exact h hother

theorem Avoids.mono {marks marks' : List Char} {rest : List Token} (h : Avoids marks rest)
    (hsubset : marks' ⊆ marks) : Avoids marks' rest := fun c hc => h c (hsubset hc)

theorem readBrackets_of_avoids {type : TypeExpr} {rest : List Token} (h : Avoids ['['] rest) :
    readBrackets type rest = (type, rest) := by
  unfold readBrackets
  split
  · exact absurd rfl (h '[' List.mem_cons_self)
  · rfl

section

variable {readonly : Bool} {tokens : List Token} {type : TypeExpr}

theorem yields_readMore_of_avoids {operator : Operator} {rest : List Token}
    (h : Avoids [operator.mark] rest) : Yields (readMore readonly operator rest) ([], rest) := by
  refine .of_succ fun steps => ?_
  unfold readMore
  split
  · rename_i c rest
    rw [if_neg]
    rintro rfl
    exact absurd rfl (h _ List.mem_cons_self)
  · rfl

theorem yields_readMore_mark {operator : Operator} {rest : List Token}
    {result : List TypeExpr × List Token} (h : Yields (readMembers readonly operator rest) result) :
    Yields (readMore readonly operator (.mark operator.mark :: rest)) result := by
  refine h.step fun steps hmembers => ?_
  rw [readMore, if_pos rfl, hmembers]

/-- The tokens are read as a type where an operand is wanted. -/
def AsOperand (readonly : Bool) (tokens : List Token) (type : TypeExpr) : Prop :=
  ∀ rest, Avoids ['<'] rest →
    Yields (readOperand readonly (tokens ++ rest)) (readBrackets type rest)

/-- What may not follow a member of a join. -/
def Operator.stops : Operator → List Char
  | .union => ['<', '[', '&']
  | .intersection => ['<', '[']

/-- The tokens are read as the members of a type where a member is wanted, before further
members. -/
def AsMember (readonly : Bool) (operator : Operator) (tokens : List Token) (type : TypeExpr) :
    Prop :=
  ∀ rest, Avoids operator.stops rest → ∀ result, Yields (readMore readonly operator rest) result →
    Yields (readMembers readonly operator (tokens ++ rest))
      (operator.members type ++ result.1, result.2)

/-- What may not follow a type. -/
def stops : List Char := ['<', '[', '&', '|']

/-- The tokens are read as a type where a type is wanted. -/
def AsType (readonly : Bool) (tokens : List Token) (type : TypeExpr) : Prop :=
  ∀ rest, Avoids stops rest → Yields (readJoin readonly .union (tokens ++ rest)) (type, rest)

-- Each level of the reader hands what it has read to the level above it: an operand is a member of
-- an intersection, an intersection is a member of a union, and a union is a type.

theorem yields_readMembers_of_operand {rest : List Token} {result : List TypeExpr × List Token}
    (h : Yields (readOperand readonly tokens) (type, rest))
    (hmore : Yields (readMore readonly .intersection rest) result) :
    Yields (readMembers readonly .intersection tokens)
      (Operator.intersection.members type ++ result.1, result.2) := by
  refine h.step₂ hmore fun steps hoperand hmore => ?_
  rw [readMembers]
  dsimp only
  rw [hoperand]
  dsimp only [Option.bind_eq_bind, Option.bind_some]
  rw [hmore]
  rfl

theorem yields_readMembers_of_join {rest : List Token} {result : List TypeExpr × List Token}
    (h : Yields (readJoin readonly .intersection tokens) (type, rest))
    (hmore : Yields (readMore readonly .union rest) result) :
    Yields (readMembers readonly .union tokens)
      (Operator.union.members type ++ result.1, result.2) := by
  refine h.step₂ hmore fun steps hjoin hmore => ?_
  rw [readMembers]
  dsimp only
  rw [hjoin]
  dsimp only [Option.bind_eq_bind, Option.bind_some]
  rw [hmore]
  rfl

/-- The members of a flat type are read as the type if no more of them follow. -/
theorem yields_readJoin {operator : Operator} {rest : List Token} (hflat : Flat type)
    (hrest : Avoids [operator.mark] rest)
    (h : ∀ result, Yields (readMore readonly operator rest) result →
      Yields (readMembers readonly operator tokens) (operator.members type ++ result.1, result.2)) :
    Yields (readJoin readonly operator tokens) (type, rest) := by
  refine (h _ (yields_readMore_of_avoids hrest)).step fun steps hmembers => ?_
  rw [readJoin, hmembers]
  dsimp only [Option.bind_eq_bind, Option.bind_some, Option.pure_def]
  rw [List.append_nil, hflat.collapse_members]

theorem AsOperand.asMember (h : AsOperand readonly tokens type) :
    AsMember readonly .intersection tokens type := by
  intro rest hrest result hmore
  -- no bracket follows, so the operand ends where its tokens do
  have hoperand := h rest (hrest.mono (by decide))
  rw [readBrackets_of_avoids (hrest.mono (by decide))] at hoperand
  exact yields_readMembers_of_operand hoperand hmore

/-- What is read as members of an intersection is a member of a union. -/
theorem AsMember.asUnionMember (h : AsMember readonly .intersection tokens type)
    (hflat : Flat type) : AsMember readonly .union tokens type := by
  intro rest hrest result hmore
  have hjoin := yields_readJoin hflat (hrest.mono (by decide)) (h rest (hrest.mono (by decide)))
  exact yields_readMembers_of_join hjoin hmore

theorem AsMember.asType (h : AsMember readonly .union tokens type) (hflat : Flat type) :
    AsType readonly tokens type := fun rest hrest =>
  yields_readJoin hflat (hrest.mono (by decide)) (h rest (hrest.mono (by decide)))

/-- A primary type is read as a type if nothing follows that a type goes on with. -/
theorem yields_readJoin_of_primary {rest : List Token} (hflat : Flat type)
    (hrest : Avoids stops rest) (h : Yields (readPrimary readonly tokens) (type, rest)) :
    Yields (readJoin readonly .union tokens) (type, rest) := by
  have hoperand : Yields (readOperand readonly tokens) (type, rest) := by
    refine h.step fun steps hprimary => ?_
    rw [readOperand, hprimary]
    exact congrArg some (readBrackets_of_avoids (hrest.mono (by decide)))
  -- an operand, the only member of an intersection, the only member of a union
  have hintersection := yields_readJoin hflat (hrest.mono (by decide)) fun _ hmore =>
    yields_readMembers_of_operand hoperand hmore
  exact yields_readJoin hflat (hrest.mono (by decide)) fun _ hmore =>
    yields_readMembers_of_join hintersection hmore

/-- A type is an operand if it is read as a primary type. -/
theorem AsOperand.of_primary
    (h : ∀ rest, Avoids ['<'] rest → Yields (readPrimary readonly (tokens ++ rest)) (type, rest)) :
    AsOperand readonly tokens type := by
  intro rest hrest
  refine (h rest hrest).step fun steps hprimary => ?_
  rw [readOperand, hprimary]
  rfl

/-- A type in parentheses is an operand. -/
theorem AsType.enclosed (h : AsType readonly tokens type)
    (hopens : ∀ rest, opensParameters (tokens ++ .mark ')' :: rest) = false) :
    AsOperand readonly (.mark '(' :: (tokens ++ [.mark ')'])) type := by
  refine .of_primary fun rest _ => ?_
  refine (h (.mark ')' :: rest) (avoids_mark (by decide) rest)).step fun steps htype => ?_
  rw [List.cons_append, List.append_assoc, List.singleton_append, readPrimary]
  dsimp only
  rw [if_neg (Bool.not_eq_true _ ▸ hopens rest), htype]
  rfl

/-- Members with marks between them are read as the members of their join. -/
theorem yields_readMembers_intercalate {ι : Type} {operator : Operator} {tokens : ι → List Token}
    {type : ι → TypeExpr} {items : List ι} (hne : items ≠ [])
    (h : ∀ item ∈ items, AsMember readonly operator (tokens item) (type item)) {rest : List Token}
    (hrest : Avoids operator.stops rest) {result : List TypeExpr × List Token}
    (hmore : Yields (readMore readonly operator rest) result) :
    Yields (readMembers readonly operator
        ([.mark operator.mark].intercalate (items.map tokens) ++ rest))
      (items.flatMap (fun item => operator.members (type item)) ++ result.1, result.2) := by
  have hmark : operator.mark ∉ operator.stops := by cases operator <;> decide
  refine yields_intercalate hne (fun item hitem rest result hothers => ?_) fun item hitem =>
    h item hitem rest hrest result hmore
  -- behind the mark the next member is read
  exact h item hitem _ (avoids_mark hmark rest) result (yields_readMore_mark hothers)

end

/-! ## How the tokens of a type start -/

/-- Whether a type may start here, and neither the name of a parameter nor the end of a list. -/
def opensType : List Token → Bool
  | .word _ :: .mark ':' :: _ => false
  | .word _ :: _ => true
  | .quoted _ :: _ => true
  | .mark c :: _ => c == '{' || c == '[' || c == '('
  | [] => false

theorem opensParameters_of_opensType {tokens : List Token} (h : opensType tokens = true) :
    opensParameters tokens = false := by
  unfold opensParameters
  split
  · exact absurd h (by simp [opensType])
  · cases h
  · rfl

theorem opensType_word (word : String) {rest : List Token} (h : Avoids [':'] rest) :
    opensType (.word word :: rest) = true := by
  unfold opensType
  split
  · rename_i heq
    cases heq
    exact absurd rfl (h ':' List.mem_cons_self)
  · rfl
  · rfl
  · rename_i heq
    cases heq
  · rename_i heq
    cases heq

theorem opensType_enclose {tokens : List Token} (needed : Bool)
    (h : ∀ rest, Avoids [':'] rest → opensType (tokens ++ rest) = true) {rest : List Token}
    (hrest : Avoids [':'] rest) : opensType (encloseTokens needed tokens ++ rest) = true := by
  cases needed with
  | false => exact h rest hrest
  | true => rfl

/-- The tokens of a type start like a type. -/
theorem Printable.opensType_tokens {type : TypeExpr} (h : Printable type) (readonly : Bool) :
    ∀ rest, Avoids [':'] rest → opensType (type.tokens readonly ++ rest) = true := by
  induction h with
  | keyword k =>
    intro rest hrest
    rw [tokens]
    exact opensType_word _ hrest
  | @literal value _ =>
    intro rest hrest
    rw [tokens]
    cases value with
    | string text => rfl
    | _ => exact opensType_word _ hrest
  | @reference name arguments _ _ _ =>
    intro rest hrest
    rw [tokens]
    split
    · exact opensType_word _ hrest
    · exact opensType_word _ (avoids_mark (by decide) _)
  | object | tuple | function | parenthesized =>
    intro rest _
    rw [tokens]
    rfl
  | @array element _ ih =>
    intro rest _
    -- the element comes first, in parentheses or without them
    rw [tokens, List.append_assoc]
    exact opensType_enclose _ ih (avoids_mark (by decide) _)
  | @join operator members hne _ ih =>
    intro rest hrest
    obtain ⟨first, more, rfl⟩ := List.exists_cons_of_ne_nil hne
    have hfirst {rest : List Token} (hrest : Avoids [':'] rest) :
        opensType (tokensAt readonly operator.position first ++ rest) = true :=
      opensType_enclose _ (ih first List.mem_cons_self) hrest
    rw [tokens_join]
    cases more with
    | nil =>
      rw [List.map_singleton, List.intercalate_singleton]
      exact hfirst hrest
    | cons second more =>
      have hmark : operator.mark ∉ [':'] := by cases operator <;> decide
      rw [intercalate_map_cons_cons, List.append_assoc, List.append_assoc, List.singleton_append]
      exact hfirst (avoids_mark hmark _)

/-! ## Lists -/

section

variable {readonly : Bool}

theorem readOptional_mark {c : Char} (h : c ≠ '?') (optional : Bool) (rest : List Token) :
    readOptional ((if optional then [.mark '?'] else []) ++ .mark c :: rest) =
      (optional, .mark c :: rest) := by
  cases optional with
  | true => rfl
  | false =>
    change readOptional (.mark c :: rest) = _
    unfold readOptional
    split
    · rename_i heq
      cases heq
      exact absurd rfl h
    · rfl

theorem yields_readArguments_comma {tokens rest : List Token} {type : TypeExpr}
    {result : List TypeExpr × List Token}
    (h : Yields (readJoin readonly .union tokens) (type, .mark ',' :: rest))
    (hmore : Yields (readArguments readonly rest) result) :
    Yields (readArguments readonly tokens) (type :: result.1, result.2) := by
  refine h.step₂ hmore fun steps htype hmore => ?_
  rw [readArguments, htype]
  change (readArguments readonly rest steps).bind _ = _
  rw [hmore]
  rfl

/-- Arguments with commas between them are read up to the angle. -/
theorem yields_readArguments_intercalate {arguments : List TypeExpr} (hne : arguments ≠ [])
    (h : ∀ argument ∈ arguments, AsType readonly (argument.tokens readonly) argument.canonical)
    (rest : List Token) :
    Yields (readArguments readonly
      ([.mark ','].intercalate (arguments.map (tokens readonly)) ++ .mark '>' :: rest))
      (arguments.map canonical, rest) := by
  refine yields_intercalate_single hne (fun argument hm rest _ hmore => ?_) fun argument hm => ?_
  · exact yields_readArguments_comma (h argument hm _ (avoids_mark (by decide) rest)) hmore
  · have hangle : Avoids stops (.mark '>' :: rest) := avoids_mark (by decide) rest
    refine (h argument hm _ hangle).step fun steps htype => ?_
    rw [readArguments, htype]
    rfl

/-- The tokens of a property, before its type. -/
theorem readKey_propertyTokens (name : String) (optional : Bool) (type rest : List Token) :
    readKey readonly (propertyTokens readonly name optional type ++ rest) =
      some ((name, optional), type ++ .mark ';' :: rest) := by
  have hrest : (if readonly then (propertyTokens readonly name optional type ++ rest).drop 1
      else propertyTokens readonly name optional type ++ rest) =
      keyToken name ::
        ((if optional then [.mark '?'] else []) ++ .mark ':' :: (type ++ .mark ';' :: rest)) := by
    unfold propertyTokens
    cases readonly <;>
      simp only [List.nil_append, List.cons_append, List.append_assoc, List.drop_succ_cons,
        List.drop_zero, if_true, Bool.false_eq_true, if_false]
  rw [readKey, hrest]
  dsimp only
  rw [key?_keyToken, readOptional_mark (by decide)]
  rfl

theorem avoids_propertyTokens (name : String) (optional : Bool) (type rest : List Token) :
    Avoids ['}'] (propertyTokens readonly name optional type ++ rest) := by
  intro c _ h
  unfold propertyTokens keyToken at h
  split at h
  · cases h
  · split at h <;> cases h

theorem yields_readProperties_semicolon {tokens rest rest' : List Token} {name : String}
    {optional : Bool} {type : TypeExpr} {result : List (String × Bool × TypeExpr) × List Token}
    (h : Avoids ['}'] tokens) (hkey : readKey readonly tokens = some ((name, optional), rest))
    (htype : Yields (readJoin readonly .union rest) (type, .mark ';' :: rest'))
    (hmore : Yields (readProperties readonly rest') result) :
    Yields (readProperties readonly tokens) ((name, optional, type) :: result.1, result.2) := by
  have hopen (rest : List Token) (heq : tokens = .mark '}' :: rest) : False :=
    h '}' List.mem_cons_self (heq ▸ rfl)
  refine htype.step₂ hmore fun steps htype hmore => ?_
  rw [readProperties.eq_3 _ _ _ hopen, hkey]
  dsimp only [Option.bind_eq_bind, Option.bind_some]
  rw [htype]
  change (readProperties readonly rest' steps).bind _ = _
  rw [hmore]
  rfl

/-- Properties, each with a semicolon behind it, are read up to the brace. -/
theorem yields_readProperties_flatten {properties : List (String × Bool × TypeExpr)}
    (h : ∀ property ∈ properties,
      AsType readonly (property.2.2.tokens readonly) property.2.2.canonical)
    (rest : List Token) :
    Yields (readProperties readonly ((properties.map fun property =>
        propertyTokens readonly property.1 property.2.1 (property.2.2.tokens readonly)).flatten ++
          .mark '}' :: rest))
      (properties.map fun property => (property.1, property.2.1, property.2.2.canonical),
        rest) := by
  induction properties with
  | nil => exact .of_succ fun steps => readProperties.eq_2 ..
  | cons first more ih =>
    rw [List.forall_mem_cons] at h
    rw [List.map_cons, List.flatten_cons, List.append_assoc]
    exact yields_readProperties_semicolon (avoids_propertyTokens _ _ _ _)
      (readKey_propertyTokens _ _ _ _)
      (h.1 _ (avoids_mark (by decide) _)) (ih h.2)

theorem yields_readElements_comma {tokens rest : List Token} {optional : Bool} {type : TypeExpr}
    {result : List (Bool × TypeExpr) × List Token} (h : Avoids [']'] tokens)
    (htype : Yields (readJoin readonly .union tokens)
      (type, (if optional then [.mark '?'] else []) ++ .mark ',' :: rest))
    (hmore : Yields (readElements readonly rest) result) :
    Yields (readElements readonly tokens) ((optional, type) :: result.1, result.2) := by
  have hopen (rest : List Token) (heq : tokens = .mark ']' :: rest) : False :=
    h ']' List.mem_cons_self (heq ▸ rfl)
  refine htype.step₂ hmore fun steps htype hmore => ?_
  rw [readElements.eq_3 _ _ _ hopen, htype]
  dsimp only [Option.bind_eq_bind, Option.bind_some]
  rw [readOptional_mark (by decide)]
  change (readElements readonly rest steps).bind _ = _
  rw [hmore]
  rfl

theorem yields_readElements_bracket {tokens rest : List Token} {optional : Bool} {type : TypeExpr}
    (h : Avoids [']'] tokens) (htype : Yields (readJoin readonly .union tokens)
      (type, (if optional then [.mark '?'] else []) ++ .mark ']' :: rest)) :
    Yields (readElements readonly tokens) ([(optional, type)], rest) := by
  have hopen (rest : List Token) (heq : tokens = .mark ']' :: rest) : False :=
    h ']' List.mem_cons_self (heq ▸ rfl)
  refine htype.step fun steps htype => ?_
  rw [readElements.eq_3 _ _ _ hopen, htype]
  dsimp only [Option.bind_eq_bind, Option.bind_some]
  rw [readOptional_mark (by decide)]
  rfl

theorem avoids_of_opensType {tokens : List Token} (h : opensType tokens = true) :
    Avoids [']', ')'] tokens := by
  intro c hc hhead
  obtain ⟨rest, rfl⟩ := List.head?_eq_some_iff.mp hhead
  rcases List.mem_cons.mp hc with rfl | hc
  · cases h
  · obtain rfl := List.mem_singleton.mp hc
    cases h

/-- What follows a slot is not what a type goes on with. -/
theorem avoids_optional {c : Char} (h : c ∉ ':' :: stops) (optional : Bool) (rest : List Token) :
    Avoids (':' :: stops) ((if optional then [.mark '?'] else []) ++ .mark c :: rest) := by
  cases optional with
  | true => exact avoids_mark (by decide) _
  | false => exact avoids_mark h _

/-- Slots with commas between them are read up to the bracket. -/
theorem yields_readElements_intercalate (readonly : Bool) {ι : Type} (tokens : ι → List Token)
    (optional : ι → Bool) (type : ι → TypeExpr) {items : List ι}
    (hopens : ∀ item ∈ items, ∀ rest, Avoids [':'] rest → opensType (tokens item ++ rest) = true)
    (h : ∀ item ∈ items, AsType readonly (tokens item) (type item)) (rest : List Token) :
    Yields (readElements readonly ([.mark ','].intercalate (items.map fun item =>
        tokens item ++ if optional item then [.mark '?'] else []) ++ .mark ']' :: rest))
      (items.map fun item => (optional item, type item), rest) := by
  -- neither a comma nor the bracket belongs to the type before it
  have hslot (item : ι) (hm : item ∈ items) {c : Char} (hc : c ∉ ':' :: stops) (rest : List Token) :
      Avoids [']']
          (tokens item ++ ((if optional item then [.mark '?'] else []) ++ .mark c :: rest)) ∧
      Yields (readJoin readonly .union
          (tokens item ++ ((if optional item then [.mark '?'] else []) ++ .mark c :: rest)))
        (type item, (if optional item then [.mark '?'] else []) ++ .mark c :: rest) := by
    have hrest := avoids_optional hc (optional item) rest
    have hopen := avoids_of_opensType (hopens item hm _ (hrest.mono (by decide)))
    exact ⟨hopen.mono (by decide), h item hm _ (hrest.mono (List.subset_cons_self _ _))⟩
  cases items with
  | nil => exact .of_succ fun steps => readElements.eq_2 ..
  | cons first more =>
    refine yields_intercalate_single (List.cons_ne_nil _ _) (fun item hm rest _ hmore => ?_)
      fun item hm => ?_
    · rw [List.append_assoc]
      exact yields_readElements_comma (hslot item hm (by decide) rest).1
        (hslot item hm (by decide) rest).2 hmore
    · rw [List.append_assoc]
      exact yields_readElements_bracket (hslot item hm (by decide) rest).1
        (hslot item hm (by decide) rest).2

theorem yields_readParameters_comma {name : String} {tokens rest : List Token} {type : TypeExpr}
    {result : List (String × TypeExpr) × List Token}
    (h : Yields (readJoin readonly .union tokens) (type, .mark ',' :: rest))
    (hmore : Yields (readParameters readonly rest) result) :
    Yields (readParameters readonly (.word name :: .mark ':' :: tokens))
      ((name, type) :: result.1, result.2) := by
  refine h.step₂ hmore fun steps htype hmore => ?_
  rw [readParameters, htype]
  change (readParameters readonly rest steps).bind _ = _
  rw [hmore]
  rfl

/-- Parameters with commas between them are read up to the parenthesis. -/
theorem yields_readParameters_intercalate {parameters : List (String × TypeExpr)}
    (h : ∀ parameter ∈ parameters,
      AsType readonly (parameter.2.tokens readonly) parameter.2.canonical)
    (rest : List Token) :
    Yields (readParameters readonly ([.mark ','].intercalate (parameters.map fun parameter =>
        .word parameter.1 :: .mark ':' :: parameter.2.tokens readonly) ++ .mark ')' :: rest))
      (parameters.map fun parameter => (parameter.1, parameter.2.canonical), rest) := by
  cases parameters with
  | nil => exact .of_succ fun steps => readParameters.eq_2 ..
  | cons first more =>
    refine yields_intercalate_single (List.cons_ne_nil _ _) (fun parameter hm rest _ hmore => ?_)
      fun parameter hm => ?_
    · exact yields_readParameters_comma (h parameter hm _ (avoids_mark (by decide) rest)) hmore
    · have hclose : Avoids stops (.mark ')' :: rest) := avoids_mark (by decide) rest
      refine (h parameter hm _ hclose).step fun steps htype => ?_
      rw [List.cons_append, List.cons_append, readParameters, htype]
      rfl

end

/-! ## Reading back -/

theorem ofText?_keyword (k : Keyword) : Keyword.ofText? k.text = some k := by
  cases k <;> rfl

theorem ofText?_of_not_isBare {word : String} (h : Identifier.isBare word = false) :
    Keyword.ofText? word = none := by
  cases hword : Keyword.ofText? word with
  | none => rfl
  | some k =>
    have htext :=
      List.find?_some (show Keyword.all.find? (fun k => k.text == word) = some k from hword)
    rw [← eq_of_beq htext, isBare_keyword] at h
    cases h

theorem isBare_of_numeric {word : String} (h : ∃ first rest, word.toList = first :: rest ∧
    (first.isDigit = true ∨ first = '-')) : Identifier.isBare word = false := by
  obtain ⟨first, rest, hword, hfirst⟩ := h
  rw [Identifier.isBare, hword]
  dsimp only
  rcases hfirst with hfirst | rfl
  · rw [hfirst, Bool.not_true, Bool.and_false, Bool.false_and]
  · rfl

/-- A literal that is no string is no name either. -/
theorem not_name_text {value : Literal} (h : ∀ x, value = .number x → x.isFinite = true)
    (hstring : ∀ text, value ≠ .string text) :
    Keyword.ofText? value.text = none ∧ isName value.text = false := by
  -- names start neither with a digit nor with a minus sign
  have hbare (hnumeric : ∃ first rest, value.text.toList = first :: rest ∧
      (first.isDigit = true ∨ first = '-')) :
      Keyword.ofText? value.text = none ∧ isName value.text = false := by
    have hbare := isBare_of_numeric hnumeric
    exact ⟨ofText?_of_not_isBare hbare, by rw [isName, hbare, Bool.false_and, Bool.false_and]⟩
  cases value with
  | string text => exact absurd rfl (hstring text)
  | number x => exact hbare (Literal.numeric_numberText (h x rfl)).first
  | boolean b => cases b <;> exact ⟨rfl, by decide⟩
  | bigint n =>
    obtain ⟨first, rest, hfirst, hnumber⟩ := (Integer.numeric_text n).first
    refine hbare ⟨first, rest ++ ['n'], ?_, hnumber⟩
    rw [Literal.text, String.toList_append, hfirst]
    rfl
  | null => exact ⟨rfl, by decide⟩

/-- A type is read from its tokens at every place. -/
structure Reads (readonly : Bool) (type : TypeExpr) : Prop where
  operand : AsOperand readonly (type.tokensAt readonly .arrayElement) type.canonical
  member : ∀ operator : Operator,
    AsMember readonly operator (type.tokensAt readonly operator.position) type.canonical
  type : AsType readonly (type.tokens readonly) type.canonical

theorem tokensAt_of_not {type : TypeExpr} {position : Position} (readonly : Bool)
    (h : type.needsParentheses position = false) :
    type.tokensAt readonly position = type.tokens readonly := by
  rw [tokensAt, h]
  rfl

theorem tokensAt_of {type : TypeExpr} {position : Position} (readonly : Bool)
    (h : type.needsParentheses position = true) :
    type.tokensAt readonly position = .mark '(' :: (type.tokens readonly ++ [.mark ')']) := by
  rw [tokensAt, h]
  rfl

section

variable {readonly : Bool} {type : TypeExpr}

/-- A type that never needs parentheses is read everywhere if it is read as an operand. -/
theorem Reads.of_operand (h : AsOperand readonly (type.tokens readonly) type.canonical)
    (hflat : Flat type.canonical) (hneeds : ∀ position, type.needsParentheses position = false) :
    Reads readonly type where
  operand := tokensAt_of_not readonly (hneeds _) ▸ h
  member operator := by
    rw [tokensAt_of_not readonly (hneeds _)]
    cases operator with
    | union => exact h.asMember.asUnionMember hflat
    | intersection => exact h.asMember
  type := (h.asMember.asUnionMember hflat).asType hflat

theorem AsType.operand (h : AsType readonly (type.tokens readonly) type.canonical)
    (hprintable : Printable type) {position : Position}
    (hneeds : type.needsParentheses position = true) :
    AsOperand readonly (type.tokensAt readonly position) type.canonical := by
  rw [tokensAt_of readonly hneeds]
  exact h.enclosed fun rest => opensParameters_of_opensType
    (hprintable.opensType_tokens readonly _ (avoids_mark (by decide) rest))

/-- A type that needs parentheses everywhere is read everywhere if it is read as a type. -/
theorem Reads.of_type (h : AsType readonly (type.tokens readonly) type.canonical)
    (hprintable : Printable type)
    (hneeds : ∀ position, position ≠ .top → type.needsParentheses position = true) :
    Reads readonly type where
  operand := h.operand hprintable (hneeds _ (by decide))
  member operator := by
    cases operator with
    | union =>
      exact (h.operand hprintable (hneeds _ (by decide))).asMember.asUnionMember
        hprintable.flat_canonical
    | intersection => exact (h.operand hprintable (hneeds _ (by decide))).asMember
  type := h

/-- What is read from a text of members is the join of what is read from the members. -/
theorem asMember_join {operator : Operator} {members : List TypeExpr} (hne : members ≠ [])
    (hprintable : ∀ member ∈ members, Printable member)
    (h : ∀ member ∈ members, Reads readonly member) :
    AsMember readonly operator ((operator.join members).tokens readonly)
      (operator.join members).canonical := by
  intro rest hrest result hmore
  rw [tokens_join,
    members_canonical_join fun member hmember => (hprintable member hmember).flat_canonical,
    List.flatMap_map]
  exact yields_readMembers_intercalate hne
    (fun member hmember => (h member hmember).member operator) hrest hmore

theorem Reads.of_join {operator : Operator} {members : List TypeExpr} (hne : members ≠ [])
    (hprintable : ∀ member ∈ members, Printable member)
    (h : ∀ member ∈ members, Reads readonly member) : Reads readonly (operator.join members) := by
  have hjoin : Printable (operator.join members) := .join operator hne hprintable
  have hflat := hjoin.flat_canonical
  have hmember : AsMember readonly operator _ _ := asMember_join hne hprintable h
  -- a union is in parentheses in an intersection, and an intersection is not in a union
  cases operator with
  | union =>
    have htype := hmember.asType hflat
    refine ⟨htype.operand hjoin rfl, fun operator => ?_, htype⟩
    cases operator with
    | union => exact hmember
    | intersection => exact (htype.operand hjoin rfl).asMember
  | intersection =>
    have hunion := hmember.asUnionMember hflat
    have htype := hunion.asType hflat
    refine ⟨htype.operand hjoin rfl, fun operator => ?_, htype⟩
    cases operator with
    | union => exact hunion
    | intersection => exact hmember

end

theorem yields_readPrimary_word {readonly : Bool} {word : String} {type : TypeExpr}
    (h : ofWord? word = some type) {rest : List Token} (hrest : Avoids ['<'] rest) :
    Yields (readPrimary readonly (.word word :: rest)) (type, rest) := by
  have hopen (tokens : List Token) (heq : rest = .mark '<' :: tokens) : False :=
    hrest '<' List.mem_cons_self (heq ▸ rfl)
  refine .of_succ fun steps => ?_
  rw [readPrimary.eq_4 _ _ _ _ hopen, h]
  rfl

theorem yields_readPrimary_function {readonly : Bool} {parameters : List (String × TypeExpr)}
    {returns : TypeExpr} {tokens tokens' rest : List Token} (hopens : opensParameters tokens = true)
    (hparameters : Yields (readParameters readonly tokens)
      (parameters, .mark '=' :: .mark '>' :: tokens'))
    (hreturns : Yields (readJoin readonly .union tokens') (returns, rest)) :
    Yields (readPrimary readonly (.mark '(' :: tokens)) (function parameters returns, rest) := by
  refine hparameters.step₂ hreturns fun steps hparameters hreturns => ?_
  rw [readPrimary, if_pos hopens, hparameters]
  change (readJoin readonly .union tokens' steps).bind _ = _
  rw [hreturns]
  rfl

theorem ofWord?_name {name : String} (h : isName name = true) :
    ofWord? name = some (reference name []) := by
  have hkeyword : Keyword.ofText? name = none := by
    rw [isName, Bool.and_eq_true, Bool.and_eq_true, Option.isNone_iff_eq_none] at h
    exact h.1.2
  rw [ofWord?, hkeyword]
  exact if_pos h

theorem ofWord?_literal {value : Literal} (h : ∀ x, value = .number x → x.isFinite = true)
    (hstring : ∀ text, value ≠ .string text) :
    ofWord? value.text = some (literal value.canonical) := by
  have hnan : value.isNaN = false := by
    cases value with
    | number x => exact Binary64.isNaN_of_isFinite (h x rfl)
    | _ => rfl
  have htoken : value.token = .word value.text := by
    cases value with
    | string text => exact absurd rfl (hstring text)
    | _ => rfl
  -- no keyword and no name is written like a literal, so the word is read as one
  have hread := Literal.ofToken?_token hnan
  rw [htoken] at hread
  rw [ofWord?, (not_name_text h hstring).1]
  dsimp only
  rw [if_neg (Bool.not_eq_true _ ▸ (not_name_text h hstring).2)]
  exact congrArg (Option.map literal) hread

/-- From the tokens of a type its canonical form is read. -/
theorem Printable.reads {type : TypeExpr} (h : Printable type) (readonly : Bool) :
    Reads readonly type := by
  have hflat := h.flat_canonical
  -- what follows stays general, so that each part is read where it stands in the whole
  induction h with
  | keyword k =>
    refine .of_operand (.of_primary fun rest hrest => ?_) hflat fun _ => rfl
    rw [tokens, canonical]
    exact yields_readPrimary_word (by rw [ofWord?, ofText?_keyword]) hrest
  | @literal value finite =>
    refine .of_operand (.of_primary fun rest hrest => ?_) hflat fun _ => rfl
    rw [tokens, canonical]
    -- a string is known by its quotes, and the words of other literals are no names
    cases value with
    | string text => exact .of_succ fun steps => readPrimary.eq_2 ..
    | _ =>
      exact yields_readPrimary_word (ofWord?_literal finite fun _ h => Literal.noConfusion h) hrest
  | @reference name arguments hname hprintable ih =>
    refine .of_operand (.of_primary fun rest hrest => ?_) hflat fun _ => rfl
    rw [tokens, canonical]
    cases arguments with
    | nil => exact yields_readPrimary_word (ofWord?_name hname) hrest
    | cons first more =>
      have harguments := yields_readArguments_intercalate (List.cons_ne_nil first more)
        (fun argument h => (ih argument h (hprintable argument h).flat_canonical).type) rest
      rw [if_neg (by simp), List.cons_append, List.cons_append, List.append_assoc,
        List.singleton_append]
      refine harguments.step fun steps harguments => ?_
      rw [readPrimary, harguments]
      rfl
  | @object properties hprintable ih =>
    refine .of_operand (.of_primary fun rest _ => ?_) hflat fun _ => rfl
    have hproperties := yields_readProperties_flatten
      (fun property h => (ih property h (hprintable property h).flat_canonical).type) rest
    rw [tokens, canonical, List.cons_append, List.append_assoc, List.singleton_append]
    refine hproperties.step fun steps hproperties => ?_
    rw [readPrimary, hproperties]
    rfl
  | @array element hprintable ih =>
    refine .of_operand (fun rest _ => ?_) hflat fun _ => rfl
    -- the brackets are read behind the element
    rw [tokens, canonical, List.append_assoc]
    exact (ih hprintable.flat_canonical).operand _ (avoids_mark (by decide) _)
  | @tuple elements hprintable ih =>
    refine .of_operand (.of_primary fun rest _ => ?_) hflat fun _ => rfl
    have hreads (element : Bool × TypeExpr) (h : element ∈ elements) : Reads readonly element.2 :=
      ih element h (hprintable element h).flat_canonical
    have helements := yields_readElements_intercalate readonly
      (fun element : Bool × TypeExpr =>
        encloseTokens (element.1 && element.2.needsParentheses .optionalElement)
          (element.2.tokens readonly))
      Prod.fst (fun element => element.2.canonical)
      (fun element h rest => opensType_enclose _ ((hprintable element h).opensType_tokens readonly))
      (fun element h => ?_) rest
    · rw [tokens, canonical, List.cons_append, List.append_assoc, List.singleton_append]
      refine helements.step fun steps helements => ?_
      rw [readPrimary, helements]
      rfl
    · obtain ⟨optional, type⟩ := element
      cases optional with
      | false => exact (hreads _ h).type
      | true =>
        -- optional slots have parentheses like elements of arrays
        have hposition :
            type.needsParentheses .optionalElement = type.needsParentheses .arrayElement := by
          cases type <;> rfl
        have hflat := (hprintable _ h).flat_canonical
        have hoperand := (hreads _ h).operand
        rw [tokensAt, ← hposition] at hoperand
        exact (hoperand.asMember.asUnionMember hflat).asType hflat
  | @function parameters returns hnames hprintable hreturns ih ihReturns =>
    refine .of_type (fun rest hrest => ?_) (.function hnames hprintable hreturns)
      fun position h => ?_
    · -- a name with a colon behind it comes first, or the end of no parameters
      have hopens : opensParameters ([.mark ','].intercalate (parameters.map fun parameter =>
          .word parameter.1 :: .mark ':' :: parameter.2.tokens readonly) ++
            (.mark ')' :: .mark '=' :: .mark '>' :: (returns.tokens readonly ++ rest))) = true := by
        cases parameters with
        | nil => rfl
        | cons first more => cases more <;> rfl
      have hparameters := yields_readParameters_intercalate
        (fun parameter h => (ih parameter h (hprintable parameter h).flat_canonical).type)
        (.mark '=' :: .mark '>' :: (returns.tokens readonly ++ rest))
      -- whatever the result goes on with belongs to the result
      have hreads := (ihReturns hreturns.flat_canonical).type rest hrest
      refine yields_readJoin_of_primary hflat hrest ?_
      rw [tokens, canonical, List.cons_append, List.append_assoc]
      exact yields_readPrimary_function hopens hparameters hreads
    · cases position <;> first | exact absurd rfl h | rfl
  | @join operator members hne hprintable ih =>
    exact .of_join hne hprintable fun member h => ih member h (hprintable member h).flat_canonical
  | @parenthesized inner hprintable ih =>
    refine .of_operand ?_ hflat fun _ => rfl
    rw [tokens, canonical]
    exact (ih hprintable.flat_canonical).type.enclosed fun rest => opensParameters_of_opensType
      (hprintable.opensType_tokens readonly _ (avoids_mark (by decide) rest))

/-! ## Types of one text -/

/-- In one style, types that are printed alike are the same, apart from parentheses, joins of one
member and joins directly in joins with the same operator. -/
theorem canonical_eq_of_print_eq (style : DeclarationStyle) {a b : TypeExpr} (ha : Printable a)
    (hb : Printable b) (h : a.print style = b.print style) : a.canonical = b.canonical := by
  have hread {type : TypeExpr} (htype : Printable type) :
      Yields (readJoin style.readonly .union (Source.tokens (type.print style).toList))
        (type.canonical, []) := by
    have htokens := htype.lexes_text style 0 [] ends_nil
    have htyped := (htype.reads style.readonly).type [] (avoids_nil stops)
    rw [List.append_nil, tokens_nil] at htokens
    rwa [print, htokens]
  have hfirst := hread ha
  rw [h] at hfirst
  exact congrArg Prod.fst (hfirst.unique (hread hb))

/-- Either a text or a callback, the callback in parentheses of its own. -/
def textOrCallback : TypeExpr :=
  union [keyword .string,
    parenthesized (function [("value", literal (.number .zero))] (keyword .void))]

example : textOrCallback.print {} = "string | ((value: 0) => void)" := by decide +kernel

/-- The same with the parentheses that its place asks for, and with a union around the text
alone. -/
def textOrBareCallback : TypeExpr :=
  union [union [keyword .string],
    function [("value", literal (.number { Binary64.zero with negative := true }))] (keyword .void)]

theorem printable_textOrCallback : Printable textOrCallback :=
  .join .union (List.cons_ne_nil _ _) <|
    List.forall_mem_cons.mpr ⟨.keyword _, List.forall_mem_singleton.mpr
    (.parenthesized (.function (List.forall_mem_singleton.mpr (by decide))
      (List.forall_mem_singleton.mpr (.literal fun x h => by cases h; decide)) (.keyword _)))⟩

theorem printable_textOrBareCallback : Printable textOrBareCallback :=
  .join .union (List.cons_ne_nil _ _) <| List.forall_mem_cons.mpr
    ⟨.join .union (List.cons_ne_nil _ _) (List.forall_mem_singleton.mpr (.keyword _)),
      List.forall_mem_singleton.mpr (.function (List.forall_mem_singleton.mpr (by decide))
        (List.forall_mem_singleton.mpr (.literal fun x h => by cases h; decide)) (.keyword _))⟩

theorem canonical_textOrCallback_eq :
    Printable textOrCallback ∧ Printable textOrBareCallback ∧
      textOrCallback.print {} = textOrBareCallback.print {} ∧
        textOrCallback.canonical = textOrBareCallback.canonical :=
  have hprint : textOrCallback.print {} = textOrBareCallback.print {} := by decide +kernel
  ⟨printable_textOrCallback, printable_textOrBareCallback, hprint,
    canonical_eq_of_print_eq {} printable_textOrCallback printable_textOrBareCallback hprint⟩

end TypeGraph.TypeExpr
