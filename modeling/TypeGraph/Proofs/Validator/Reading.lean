import TypeGraph.Validator.Expr
import TypeGraph.Proofs.Lists
import TypeGraph.Proofs.Text.Literals
import TypeGraph.Proofs.Text.Reader

/-!
# Reading validator expressions

A reader for the text of expressions: a primary expression, and calls of methods chained behind it.
A word alone does not say whether it is a name or a literal, which only the method that it is passed
to decides; apart from that an expression is read as it was written.

Main results:

* `Expr.Readable.lexes_text`: the tokens of the text of an expression.
* `Expr.Readable.asExpr`: from its tokens the expression is read.
* `Expr.words_eq_of_text_eq`: expressions with the same text differ in what words are literals at
  most.
-/

namespace TypeGraph.Validator.Expr

open Source

/-! ## Expressions in words -/

/-- The expression with the words of its literals in place of the literals. -/
def words : Expr → Expr
  | identifier name => identifier name
  | literal (.string text) => literal (.string text)
  | literal value => identifier value.text
  | array elements => array (elements.map words)
  | object properties => object (properties.map fun property => (property.1, property.2.words))
  | call receiver method arguments => call receiver.words method (arguments.map words)
  termination_by expr => sizeOf expr
  decreasing_by
    all_goals simp only [array.sizeOf_spec, object.sizeOf_spec, call.sizeOf_spec]
    · have := List.sizeOf_lt_of_mem ‹_ ∈ elements›; omega
    · have := sizeOf_snd_lt_of_mem ‹_ ∈ properties›; omega
    · omega
    · have := List.sizeOf_lt_of_mem ‹_ ∈ arguments›; omega

/-- Expressions that can be read: names are bare identifiers, and no method of a literal is
called. -/
inductive Readable : Expr → Prop
  | identifier {name : String} (hname : Identifier.isBare name = true) : Readable (identifier name)
  | literal (value : Literal) : Readable (literal value)
  | array {elements : List Expr} (helements : ∀ element ∈ elements, Readable element) :
    Readable (array elements)
  | object {properties : List (String × Expr)}
      (hproperties : ∀ property ∈ properties, Readable property.2) :
    Readable (object properties)
  | call {receiver : Expr} {method : String} {arguments : List Expr} (hreceiver : Readable receiver)
    (hliteral : ∀ value, receiver ≠ .literal value) (hmethod : Identifier.isBare method = true)
    (harguments : ∀ argument ∈ arguments, Readable argument) :
        Readable (call receiver method arguments)

/-! ## Tokens -/

/-- The tokens of an expression. -/
def tokens : Expr → List Token
  | identifier name => [.word name]
  | literal value => [value.token]
  | array elements => .mark '[' :: ([.mark ','].intercalate (elements.map tokens) ++ [.mark ']'])
  | object properties =>
    .mark '{' :: ([.mark ','].intercalate (properties.map fun property =>
      keyToken property.1 :: .mark ':' :: property.2.tokens) ++ [.mark '}'])
  | call receiver method arguments =>
    receiver.tokens ++ .mark '.' :: .word method :: .mark '(' ::
      ([.mark ','].intercalate (arguments.map tokens) ++ [.mark ')'])
  termination_by expr => sizeOf expr
  decreasing_by
    all_goals simp only [array.sizeOf_spec, object.sizeOf_spec, call.sizeOf_spec]
    · have := List.sizeOf_lt_of_mem ‹_ ∈ elements›; omega
    · have := sizeOf_snd_lt_of_mem ‹_ ∈ properties›; omega
    · omega
    · have := List.sizeOf_lt_of_mem ‹_ ∈ arguments›; omega

theorem textOfAll_eq_map (exprs : List Expr) : textOfAll exprs = exprs.map text :=
  eq_map rfl (fun _ _ => by rw [textOfAll]) exprs

theorem textOfProperties_eq_map (properties : List (String × Expr)) :
    textOfProperties properties =
      properties.map fun property =>
        Identifier.propertyKey property.1 ++ ": " ++ property.2.text :=
  eq_map rfl (fun _ _ => by rw [textOfProperties]) properties

/-- What comes before a point is read, whatever the method behind it. -/
theorem leads_point {text : String} {read : List Token} (h : ∀ rest, NameEnds rest →
    Source.tokens (text.toList ++ rest) = read ++ Source.tokens rest) :
    Leads (text ++ ".") (read ++ [.mark '.']) := by
  intro rest
  have hpoint : NameEnds ('.' :: rest) := by
    intro c hc
    cases hc
    rfl
  rw [String.toList_append, List.append_assoc, List.append_assoc]
  exact (h _ hpoint).trans (congrArg _ (tokens_mark rfl rest))

/-- The tokens of the text of an expression. A point may follow an expression that is no literal. -/
theorem Readable.lexes_text {expr : Expr} (h : Readable expr) :
    Lexes expr.text expr.tokens ∧ ((∀ value, expr ≠ .literal value) → ∀ rest, NameEnds rest →
      Source.tokens (expr.text.toList ++ rest) = expr.tokens ++ Source.tokens rest) := by
  have hcomma : Delimits ", " [.mark ','] := delimits_marks (by decide) (by decide)
  -- brackets and braces end by themselves, whatever follows
  have hof_leads {expr : Expr} (hleads : Leads expr.text expr.tokens) :
      Lexes expr.text expr.tokens ∧ ((∀ value, expr ≠ .literal value) → ∀ rest, NameEnds rest →
        Source.tokens (expr.text.toList ++ rest) = expr.tokens ++ Source.tokens rest) :=
    ⟨hleads.lexes, fun _ rest _ => hleads rest⟩
  induction h with
  | @identifier name hname =>
    rw [text, tokens]
    exact ⟨.name hname, fun _ rest hrest => tokens_name hname hrest⟩
  | literal value =>
    -- a number would go on with the point behind it
    refine ⟨?_, fun h => absurd rfl (h value)⟩
    rw [text, tokens]
    exact fun rest hrest => Literal.tokens_text value hrest
  | @array elements _ ih =>
    have hopen : Delimits "[" [.mark '['] := delimits_marks (by decide) (by decide)
    have hclose : Delimits "]" [.mark ']'] := delimits_marks (by decide) (by decide)
    refine hof_leads ?_
    rw [text, tokens, textOfAll_eq_map]
    exact (hopen.leads.append
      (.intercalate hcomma (forall₂_map_map fun element h => (ih element h).1))).append
      hclose
  | @object properties _ ih =>
    refine hof_leads ?_
    cases properties with
    | nil =>
      have hbraces : Delimits "\x7b\x7d" [.mark '{', .mark '}'] :=
        delimits_marks (by decide) (by decide)
      rw [text, tokens]
      exact hbraces.leads
    | cons first rest =>
      have hopen : Delimits "\x7b " [.mark '{'] := delimits_marks (by decide) (by decide)
      have hclose : Delimits " \x7d" [.mark '}'] := delimits_marks (by decide) (by decide)
      have hcolon : Delimits ": " [.mark ':'] := delimits_marks (by decide) (by decide)
      have hproperty (property : String × Expr) (h : property ∈ first :: rest) :
          Lexes (Identifier.propertyKey property.1 ++ ": " ++ property.2.text)
            (keyToken property.1 :: .mark ':' :: property.2.tokens) :=
        ((Lexes.propertyKey property.1).append hcolon).append (ih property h).1
      have hproperties := Lexes.intercalate hcomma (forall₂_map_map hproperty)
      rw [text, tokens, textOfProperties_eq_map]
      exact (hopen.leads.append hproperties).append hclose
  | @call receiver method arguments _ hliteral hmethod _ ihReceiver ih =>
    have hopen : Delimits "(" [.mark '('] := delimits_marks (by decide) (by decide)
    have hclose : Delimits ")" [.mark ')'] := delimits_marks (by decide) (by decide)
    have hname := ((leads_point (ihReceiver.2 hliteral)).append (Lexes.name hmethod)).append hopen
    have hcall := (hname.append (.intercalate hcomma
      (forall₂_map_map fun argument h => (ih argument h).1))).append hclose
    refine hof_leads ?_
    rw [text, tokens, textOfAll_eq_map]
    simpa only [List.append_assoc, List.cons_append, List.nil_append] using hcall

/-! ## The reader -/

mutual

/-- An expression with the calls behind it. -/
def readExpr (tokens : List Token) : Nat → Option (Expr × List Token)
  | 0 => none
  | steps + 1 => do
    let (expr, rest) ← readPrimary tokens steps
    readCalls expr rest steps

/-- Calls of methods of an expression. -/
def readCalls (receiver : Expr) (tokens : List Token) : Nat → Option (Expr × List Token)
  | 0 => none
  | steps + 1 =>
    match tokens with
    | .mark '.' :: .word method :: .mark '(' :: rest => do
      let (arguments, rest) ← readList ')' rest steps
      readCalls (call receiver method arguments) rest steps
    | rest => some (receiver, rest)

/-- An expression without calls behind it. -/
def readPrimary (tokens : List Token) : Nat → Option (Expr × List Token)
  | 0 => none
  | steps + 1 =>
    match tokens with
    | .word word :: rest => some (identifier word, rest)
    | .quoted text :: rest => some (literal (.string text), rest)
    | .mark '[' :: rest => do
      let (elements, rest) ← readList ']' rest steps
      return (array elements, rest)
    | .mark '{' :: rest => do
      let (properties, rest) ← readProperties rest steps
      return (object properties, rest)
    | _ => none

/-- Expressions up to the mark that closes them. -/
def readList (close : Char) (tokens : List Token) : Nat → Option (List Expr × List Token)
  | 0 => none
  | steps + 1 =>
    if tokens.head? = some (.mark close) then some ([], tokens.tail)
    else do
      let (expr, rest) ← readExpr tokens steps
      match rest with
      | .mark ',' :: rest => do
        let (more, rest) ← readList close rest steps
        return (expr :: more, rest)
      | .mark c :: rest => if c = close then some ([expr], rest) else none
      | _ => none

/-- Properties up to the brace that closes them. -/
def readProperties (tokens : List Token) : Nat → Option (List (String × Expr) × List Token)
  | 0 => none
  | steps + 1 =>
    match tokens with
    | .mark '}' :: rest => some ([], rest)
    | key :: .mark ':' :: rest => do
      let name ← key.key?
      let (expr, rest) ← readExpr rest steps
      match rest with
      | .mark ',' :: rest => do
        let (more, rest) ← readProperties rest steps
        return ((name, expr) :: more, rest)
      | .mark '}' :: rest => some ([(name, expr)], rest)
      | _ => none
    | _ => none

end

/-! ## Reading back -/

/-- The tokens of an expression do not start like the end of a list. -/
theorem Readable.head_tokens {expr : Expr} (h : Readable expr) {close : Char}
    (hclose : close = ']' ∨ close = ')')
    (rest : List Token) : (expr.tokens ++ rest).head? ≠ some (.mark close) := by
  -- a call begins as its receiver does, and all others with a mark or a word of their own
  induction h generalizing rest with
  | identifier =>
    rw [tokens]
    exact fun h => Token.noConfusion (Option.some.inj h)
  | literal value =>
    rw [tokens]
    cases value <;> exact fun h => Token.noConfusion (Option.some.inj h)
  | array | object =>
    rw [tokens]
    rintro h
    cases h
    rcases hclose with h | h <;> cases h
  | call _ _ _ _ ih _ =>
    rw [tokens, List.append_assoc]
    exact ih _

/-- The tokens are read as the expression, to which the calls that follow belong. -/
def AsExpr (tokens : List Token) (expr : Expr) : Prop :=
  ∀ rest result, Yields (readCalls expr rest) result → Yields (readExpr (tokens ++ rest)) result

/-- No call follows where another mark than a point comes first. -/
theorem AsExpr.before_mark {tokens : List Token} {expr : Expr} (h : AsExpr tokens expr) {c : Char}
    (hc : c ≠ '.') (rest : List Token) :
    Yields (readExpr (tokens ++ .mark c :: rest)) (expr, .mark c :: rest) := by
  refine h _ _ (.of_succ fun steps => ?_)
  unfold readCalls
  split
  · rename_i heq
    cases heq
    exact absurd rfl hc
  · rfl

theorem AsExpr.of_primary {tokens : List Token} {expr : Expr}
    (h : ∀ rest, Yields (readPrimary (tokens ++ rest)) (expr, rest)) : AsExpr tokens expr := by
  intro rest result hcalls
  refine (h rest).step₂ hcalls fun steps hprimary hcalls => ?_
  rw [readExpr, hprimary]
  exact hcalls

theorem yields_readList_comma {close : Char} {tokens rest : List Token} {expr : Expr}
    {result : List Expr × List Token} (hhead : tokens.head? ≠ some (.mark close))
    (h : Yields (readExpr tokens) (expr, .mark ',' :: rest))
    (hmore : Yields (readList close rest) result) :
    Yields (readList close tokens) (expr :: result.1, result.2) := by
  refine h.step₂ hmore fun steps hexpr hmore => ?_
  rw [readList, if_neg hhead, hexpr]
  change (readList close rest steps).bind _ = _
  rw [hmore]
  rfl

theorem yields_readList_close {close : Char} (hclose : close = ']' ∨ close = ')')
    {tokens rest : List Token}
    {expr : Expr} (hhead : tokens.head? ≠ some (.mark close))
    (h : Yields (readExpr tokens) (expr, .mark close :: rest)) :
    Yields (readList close tokens) ([expr], rest) := by
  refine h.step fun steps hexpr => ?_
  rw [readList, if_neg hhead, hexpr]
  rcases hclose with rfl | rfl <;> rfl

/-- Expressions with commas between them are read up to the mark that closes them. -/
theorem yields_readList_intercalate {close : Char} (hclose : close = ']' ∨ close = ')')
    {exprs : List Expr}
    (hreadable : ∀ expr ∈ exprs, Readable expr) (h : ∀ expr ∈ exprs, AsExpr expr.tokens expr.words)
    (rest : List Token) :
    Yields (readList close ([.mark ','].intercalate (exprs.map tokens) ++ .mark close :: rest))
      (exprs.map words, rest) := by
  have hpoint : close ≠ '.' := by rcases hclose with rfl | rfl <;> decide
  cases exprs with
  | nil =>
    refine .of_succ fun steps => ?_
    rw [readList]
    exact if_pos rfl
  | cons first more =>
    refine yields_intercalate_single (List.cons_ne_nil _ _) (fun expr hm rest _ hmore => ?_)
      fun expr hm => ?_
    · exact yields_readList_comma ((hreadable expr hm).head_tokens hclose _)
        ((h expr hm).before_mark (by decide) rest) hmore
    · exact yields_readList_close hclose ((hreadable expr hm).head_tokens hclose _)
        ((h expr hm).before_mark hpoint rest)

theorem yields_readProperties_comma {name : String} {tokens rest : List Token} {expr : Expr}
    {result : List (String × Expr) × List Token}
    (h : Yields (readExpr tokens) (expr, .mark ',' :: rest))
    (hmore : Yields (readProperties rest) result) :
    Yields (readProperties (keyToken name :: .mark ':' :: tokens))
      ((name, expr) :: result.1, result.2) := by
  refine h.step₂ hmore fun steps hexpr hmore => ?_
  rw [readProperties, key?_keyToken]
  · change (readExpr tokens steps).bind _ = _
    rw [hexpr]
    change (readProperties rest steps).bind _ = _
    rw [hmore]
    rfl
  · exact keyToken_ne_mark name '}'

theorem yields_readProperties_brace {name : String} {tokens rest : List Token} {expr : Expr}
    (h : Yields (readExpr tokens) (expr, .mark '}' :: rest)) :
    Yields (readProperties (keyToken name :: .mark ':' :: tokens)) ([(name, expr)], rest) := by
  refine h.step fun steps hexpr => ?_
  rw [readProperties, key?_keyToken]
  · change (readExpr tokens steps).bind _ = _
    rw [hexpr]
    rfl
  · exact keyToken_ne_mark name '}'

/-- Properties with commas between them are read up to the brace. -/
theorem yields_readProperties_intercalate {properties : List (String × Expr)}
    (h : ∀ property ∈ properties, AsExpr property.2.tokens property.2.words) (rest : List Token) :
    Yields (readProperties ([.mark ','].intercalate (properties.map fun property =>
        keyToken property.1 :: .mark ':' :: property.2.tokens) ++ .mark '}' :: rest))
      (properties.map fun property => (property.1, property.2.words), rest) := by
  cases properties with
  | nil => exact .of_succ fun steps => readProperties.eq_2 ..
  | cons first more =>
    refine yields_intercalate_single (List.cons_ne_nil _ _) (fun property hm rest _ hmore => ?_)
      fun property hm => ?_
    · exact yields_readProperties_comma ((h property hm).before_mark (by decide) rest) hmore
    · exact yields_readProperties_brace ((h property hm).before_mark (by decide) rest)

/-- From its tokens an expression is read, in words. -/
theorem Readable.asExpr {expr : Expr} (h : Readable expr) : AsExpr expr.tokens expr.words := by
  induction h with
  | identifier =>
    rw [tokens, words]
    exact .of_primary fun rest => .of_succ fun steps => readPrimary.eq_2 ..
  | literal value =>
    rw [tokens]
    cases value with
    | string text =>
      rw [words]
      exact .of_primary fun rest => .of_succ fun steps => readPrimary.eq_3 ..
    | _ =>
      rw [words]
      · exact .of_primary fun rest => .of_succ fun steps => readPrimary.eq_2 ..
      · exact fun _ h => Literal.noConfusion h
  | @array elements helements ih =>
    refine .of_primary fun rest => ?_
    rw [tokens, words, List.cons_append, List.append_assoc, List.singleton_append]
    refine (yields_readList_intercalate (.inl rfl) helements ih rest).step fun steps helements => ?_
    rw [readPrimary, helements]
    rfl
  | @object properties _ ih =>
    refine .of_primary fun rest => ?_
    rw [tokens, words, List.cons_append, List.append_assoc, List.singleton_append]
    refine (yields_readProperties_intercalate ih rest).step fun steps hproperties => ?_
    rw [readPrimary, hproperties]
    rfl
  | @call receiver method arguments _ _ _ harguments ihReceiver ih =>
    intro rest result hcalls
    rw [words] at hcalls
    rw [tokens, List.append_assoc, List.cons_append, List.cons_append, List.cons_append,
      List.append_assoc, List.singleton_append]
    -- the receiver is read first, and the call is the first that follows it
    refine ihReceiver _ _ ?_
    refine (yields_readList_intercalate (.inr rfl) harguments ih rest).step₂ hcalls
      fun steps harguments hcalls => ?_
    rw [readCalls, harguments]
    exact hcalls

/-- Expressions with the same text are the same, apart from what words in them are literals. -/
theorem words_eq_of_text_eq {a b : Expr} (ha : Readable a) (hb : Readable b) (h : a.text = b.text) :
    a.words = b.words := by
  have hread {expr : Expr} (hexpr : Readable expr) :
      Yields (readExpr (Source.tokens expr.text.toList)) (expr.words, []) := by
    have htokens := hexpr.lexes_text.1 [] ends_nil
    have hcalls : Yields (readCalls expr.words []) (expr.words, []) := by
      refine .of_succ fun steps => ?_
      rw [readCalls]
      exact fun _ _ => (List.cons_ne_nil _ _).symm
    rw [List.append_nil, tokens_nil] at htokens
    rw [htokens]
    exact hexpr.asExpr [] _ hcalls
  have hfirst := hread ha
  rw [h] at hfirst
  exact congrArg Prod.fst (hfirst.unique (hread hb))

end TypeGraph.Validator.Expr
