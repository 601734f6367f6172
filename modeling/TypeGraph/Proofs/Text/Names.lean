import TypeGraph.Proofs.TypeExpr.Tokens
import TypeGraph.Proofs.Validator.Reading

/-!
# Names in source text

The names that a text uses are its words, except where a word is the key of a property or the method
of a call. They are read from the tokens, without a parser: a key is followed by a colon, a method
stands behind a point. Numbers count as names as well, without their signs, since some of them are
spelled with letters.

Main results:

* `Validator.Expr.Readable.uses_tokens`: the names in the text of an expression.
* `TypeExpr.Printable.uses_tokens`: the names in the text of a type.
-/

namespace TypeGraph

namespace Source

/-- Whether what follows a word makes it a key. -/
def endsKey : List Token → Bool
  | .mark ':' :: _ | .mark '?' :: .mark ':' :: _ => true
  | _ => false

/-- The name in a word, behind the sign if there is one. -/
def nameIn (word : String) : String :=
  match word.toList with
  | '-' :: rest => String.ofList rest
  | _ => word

/-- The names that a text uses, in order. -/
def names : List Token → List String
  | [] => []
  | .mark '.' :: .word _ :: rest => names rest
  | .word text :: rest => if endsKey rest then names rest else nameIn text :: names rest
  | _ :: rest => names rest

/-! ## Texts behind each other -/

/-- The names that a part of a text uses, wherever the part stands, as long as it is no key. -/
def Uses (read : List Token) (used : List String) : Prop :=
  ∀ rest, endsKey rest = false →
    endsKey (read ++ rest) = false ∧ names (read ++ rest) = used ++ names rest

theorem Uses.nil : Uses [] [] := fun _ h => ⟨h, rfl⟩

theorem Uses.append {read read' : List Token} {used used' : List String} (h : Uses read used)
    (h' : Uses read' used') : Uses (read ++ read') (used ++ used') := by
  intro rest hrest
  obtain ⟨hbehind, hnames⟩ := h' rest hrest
  obtain ⟨hends, hnames'⟩ := h _ hbehind
  rw [List.append_assoc, List.append_assoc]
  exact ⟨hends, by rw [hnames', hnames]⟩

/-- A word uses the name in it. -/
theorem Uses.word (text : String) : Uses [.word text] [nameIn text] := by
  intro rest hrest
  refine ⟨rfl, ?_⟩
  simp [names, hrest]

theorem Uses.quoted (text : String) : Uses [.quoted text] [] := fun rest _ => ⟨rfl, by simp [names]⟩

/-- Most marks use nothing and make nothing a key. -/
theorem Uses.mark {c : Char} (hcolon : c ≠ ':') (hpoint : c ≠ '.') : Uses [.mark c] [] := by
  intro rest hrest
  refine ⟨?_, by simp [names, hpoint]⟩
  -- a question mark makes a key only with a colon behind it
  rw [List.singleton_append]
  unfold endsKey
  split
  · rename_i heq
    exact absurd (Token.mark.inj (List.cons.inj heq).1) hcolon
  · rename_i heq
    rw [(List.cons.inj heq).2] at hrest
    cases hrest
  · rfl

/-- What stands in brackets uses what it would use without them. -/
theorem Uses.enclosed {read : List Token} {used : List String} (h : Uses read used)
    {opening closing : Char} (hopening : opening ≠ ':' ∧ opening ≠ '.')
    (hclosing : closing ≠ ':' ∧ closing ≠ '.') :
    Uses (.mark opening :: (read ++ [.mark closing])) used := by
  simpa using (Uses.mark hopening.1 hopening.2).append (h.append (.mark hclosing.1 hclosing.2))

/-- A method is no name. -/
theorem Uses.method {read : List Token} {used : List String} (h : Uses read used) (name : String) :
    Uses (.mark '.' :: .word name :: read) used := by
  intro rest hrest
  refine ⟨rfl, ?_⟩
  rw [List.cons_append, List.cons_append, names]
  exact (h rest hrest).2

/-- Neither is a key, whether it is quoted or not, or optional. -/
theorem Uses.property {read : List Token} {used : List String} (h : Uses read used) {key : Token}
    (hkey : ∀ c, key ≠ .mark c) (optional : Bool) :
    Uses (key :: ((if optional then [.mark '?'] else []) ++ .mark ':' :: read)) used := by
  intro rest hrest
  have hread := (h rest hrest).2
  cases key with
  | mark c => exact absurd rfl (hkey c)
  | word text => refine ⟨rfl, ?_⟩; cases optional <;> simp [names, endsKey, hread]
  | quoted text => refine ⟨rfl, ?_⟩; cases optional <;> simp [names, hread]

/-- Texts between separators use what they use. -/
theorem Uses.intercalate {marks : List Token} (hmarks : Uses marks []) {ι : Type} {items : List ι}
    {read : ι → List Token} {used : ι → List String}
    (h : ∀ item ∈ items, Uses (read item) (used item)) :
    Uses (marks.intercalate (items.map read)) (items.flatMap used) := by
  induction items with
  | nil => exact .nil
  | cons item more ih =>
    rw [List.forall_mem_cons] at h
    cases more with
    | nil => simpa using h.1
    | cons second more =>
      have htail := h.1.append (hmarks.append (ih h.2))
      simpa [List.intercalate_cons_cons] using htail

theorem Uses.flatten {ι : Type} {items : List ι} {read : ι → List Token} {used : ι → List String}
    (h : ∀ item ∈ items, Uses (read item) (used item)) :
    Uses (items.map read).flatten (items.flatMap used) := by
  induction items with
  | nil => exact .nil
  | cons item more ih =>
    rw [List.forall_mem_cons] at h
    exact h.1.append (ih h.2)

/-- Bare names have no sign. -/
theorem nameIn_of_isBare {name : String} (h : Identifier.isBare name = true) :
    nameIn name = name := by
  unfold nameIn
  split
  · rename_i rest hname
    rw [Identifier.isBare, hname] at h
    cases h
  · rfl

end Source

open Source

/-- The words that a literal is written with, without a sign. -/
def Literal.words (value : Literal) : List String := names [value.token]

theorem Literal.uses_token (value : Literal) : Uses [value.token] value.words := by
  cases value with
  | string text => exact .quoted text
  | _ => exact .word _

namespace Validator.Expr

/-- The names that an expression uses: its identifiers and what its literals are written with. -/
def names : Expr → List String
  | identifier name => [name]
  | literal value => value.words
  | array elements => elements.flatMap names
  | object properties => properties.flatMap fun property => property.2.names
  | call receiver _ arguments => receiver.names ++ arguments.flatMap names
  termination_by expr => sizeOf expr
  decreasing_by
    all_goals simp only [array.sizeOf_spec, object.sizeOf_spec, call.sizeOf_spec]
    · have := List.sizeOf_lt_of_mem ‹_ ∈ elements›; omega
    · have := sizeOf_snd_lt_of_mem ‹_ ∈ properties›; omega
    · omega
    · have := List.sizeOf_lt_of_mem ‹_ ∈ arguments›; omega

/-- The tokens of an expression use its names. -/
theorem Readable.uses_tokens {expr : Expr} (h : Readable expr) : Uses expr.tokens expr.names := by
  have hcomma : Uses [.mark ','] [] := .mark (by decide) (by decide)
  -- keys stand before a colon and methods behind a point, where words are no names
  induction h with
  | @identifier name hname =>
    rw [tokens, names, ← nameIn_of_isBare hname]
    simpa [nameIn_of_isBare hname] using Uses.word name
  | literal value =>
    rw [tokens, names]
    exact value.uses_token
  | @array elements _ ih =>
    rw [tokens, names]
    exact (Uses.intercalate hcomma ih).enclosed (by decide) (by decide)
  | @object properties _ ih =>
    rw [tokens, names]
    refine (Uses.intercalate hcomma fun property hm => ?_).enclosed (by decide) (by decide)
    exact (ih property hm).property (keyToken_ne_mark property.1) false
  | @call receiver method arguments _ _ _ _ ihReceiver ih =>
    rw [tokens, names]
    exact ihReceiver.append
      (((Uses.intercalate hcomma ih).enclosed (by decide) (by decide)).method method)

end Validator.Expr

namespace TypeExpr

/-- The names that a type uses, keywords included. -/
def names (readonly : Bool) : TypeExpr → List String
  | keyword k => [k.text]
  | literal value => value.words
  | reference name arguments => name :: arguments.flatMap (names readonly)
  | object properties => properties.flatMap fun property =>
    (if readonly then ["readonly"] else []) ++ property.2.2.names readonly
  | array element | parenthesized element => element.names readonly
  | tuple elements => elements.flatMap fun element => element.2.names readonly
  | function parameters returns =>
    (parameters.flatMap fun parameter => parameter.2.names readonly) ++ returns.names readonly
  | union members | intersection members => members.flatMap (names readonly)
  termination_by type => sizeOf type
  decreasing_by
    all_goals simp only [reference.sizeOf_spec, object.sizeOf_spec, array.sizeOf_spec,
      tuple.sizeOf_spec, function.sizeOf_spec, union.sizeOf_spec, intersection.sizeOf_spec,
      parenthesized.sizeOf_spec]
    · have := List.sizeOf_lt_of_mem ‹_ ∈ arguments›; omega
    · have := sizeOf_type_lt_of_mem ‹_ ∈ properties›; omega
    · omega
    · omega
    · have := sizeOf_snd_lt_of_mem ‹_ ∈ elements›; omega
    · have := sizeOf_snd_lt_of_mem ‹_ ∈ parameters›; omega
    · omega
    · have := List.sizeOf_lt_of_mem ‹_ ∈ members›; omega
    · have := List.sizeOf_lt_of_mem ‹_ ∈ members›; omega

theorem names_join (readonly : Bool) (operator : Operator) (members : List TypeExpr) :
    (operator.join members).names readonly = members.flatMap (names readonly) := by
  cases operator <;> exact names.eq_def readonly _

/-- The tokens of a type use its names. -/
theorem Printable.uses_tokens {type : TypeExpr} (h : Printable type) (readonly : Bool) :
    Uses (type.tokens readonly) (type.names readonly) := by
  have hcomma : Uses [.mark ','] [] := .mark (by decide) (by decide)
  have hparentheses (needed : Bool) {read : List Token} {used : List String} (h : Uses read used) :
      Uses (encloseTokens needed read) used := by
    cases needed with
    | false => exact h
    | true => exact h.enclosed (by decide) (by decide)
  induction h with
  | keyword k =>
    rw [tokens, names]
    simpa [nameIn_of_isBare (isBare_keyword k)] using Uses.word k.text
  | literal =>
    rw [tokens, names]
    exact Literal.uses_token _
  | @reference name arguments hname _ ih =>
    have hword : Uses [.word name] [name] := by
      simpa [nameIn_of_isBare (isBare_of_isName hname)] using Uses.word name
    rw [tokens, names]
    refine hword.append ?_
    cases arguments with
    | nil => exact .nil
    | cons first rest => exact (Uses.intercalate hcomma ih).enclosed (by decide) (by decide)
  | @object properties _ ih =>
    rw [tokens, names]
    refine (Uses.flatten fun property hm => ?_).enclosed (by decide) (by decide)
    have htype := (ih property hm).append (.mark (c := ';') (by decide) (by decide))
    rw [List.append_nil] at htype
    -- the keyword stands before the key, where it is a word like any other
    refine Uses.append ?_ (htype.property (keyToken_ne_mark property.1) property.2.1)
    cases readonly with
    | false => exact .nil
    | true => exact .word "readonly"
  | @array element _ ih =>
    have hbrackets : Uses [.mark '[', .mark ']'] [] :=
      Uses.append (.mark (c := '[') (by decide) (by decide)) (.mark (by decide) (by decide))
    rw [tokens, names]
    simpa using (hparentheses _ ih).append hbrackets
  | @tuple elements _ ih =>
    rw [tokens, names]
    refine (Uses.intercalate hcomma fun element hm => ?_).enclosed (by decide) (by decide)
    have hoptional : Uses (if element.1 then [.mark '?'] else []) [] := by
      split
      · exact .mark (by decide) (by decide)
      · exact .nil
    simpa using (hparentheses (element.1 && element.2.needsParentheses .optionalElement)
      (ih element hm)).append
      hoptional
  | @function parameters returns _ _ _ ih ihReturns =>
    have harrow : Uses [.mark '=', .mark '>'] [] :=
      Uses.append (.mark (c := '=') (by decide) (by decide)) (.mark (by decide) (by decide))
    -- the names of parameters are keys
    have hparameter (parameter : String × TypeExpr) (hm : parameter ∈ parameters) :
        Uses (.word parameter.1 :: .mark ':' :: parameter.2.tokens readonly)
          (parameter.2.names readonly) :=
      (ih parameter hm).property (fun _ => Token.noConfusion) false
    have hparameters : Uses (.mark '(' :: ([.mark ','].intercalate (parameters.map fun parameter =>
        .word parameter.1 :: .mark ':' :: parameter.2.tokens readonly) ++ [.mark ')']))
        (parameters.flatMap fun parameter => parameter.2.names readonly) :=
      (Uses.intercalate hcomma hparameter).enclosed (by decide) (by decide)
    rw [tokens, names]
    simpa using hparameters.append (harrow.append ihReturns)
  | @join operator members _ _ ih =>
    rw [tokens_join, names_join]
    refine .intercalate ?_ fun member hm => hparentheses _ (ih member hm)
    cases operator <;> exact .mark (by decide) (by decide)
  | parenthesized _ ih =>
    rw [tokens, names]
    exact ih.enclosed (by decide) (by decide)

end TypeExpr

end TypeGraph
