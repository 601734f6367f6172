import TypeGraph.Proofs.TypeExpr.Canonical

/-!
# Tokens of type expressions

The tokens of the text of a type. Indentation is lost between them, and everything else is kept, so
that reading types need not look at characters.

Main results:

* `TypeExpr.Printable.lexes_text`: the tokens of the text of a type.
-/

namespace TypeGraph

open Source

namespace TypeExpr

/-! ## Lists in texts -/

/-- The text of a type at a position. -/
def textAt (style : DeclarationStyle) (depth : Nat) (position : Position) (type : TypeExpr) :
    String :=
  enclose (type.needsParentheses position) (type.text style depth)

theorem texts_eq_map (style : DeclarationStyle) (depth : Nat) (position : Position)
    (types : List TypeExpr) :
    texts style depth position types = types.map (textAt style depth position) :=
  eq_map rfl (fun _ _ => by rw [texts, textAt]) types

/-- The line of a property. -/
def propertyText (style : DeclarationStyle) (depth : Nat) (property : String × Bool × TypeExpr) :
    String :=
  spaces (style.indent * (depth + 1)) ++ (if style.readonly then "readonly " else "")
    ++ Identifier.propertyKey property.1 ++ (if property.2.1 then "?: " else ": ")
    ++ property.2.2.text style (depth + 1) ++ ";\n"

theorem propertyTexts_eq_map (style : DeclarationStyle) (depth : Nat)
    (properties : List (String × Bool × TypeExpr)) :
    propertyTexts style depth properties = properties.map (propertyText style depth) :=
  eq_map rfl (fun _ _ => by rw [propertyTexts, propertyText]) properties

/-- The text of a slot. -/
def elementText (style : DeclarationStyle) (depth : Nat) (element : Bool × TypeExpr) : String :=
  if element.1 then element.2.textAt style depth .optionalElement ++
    "?" else element.2.text style depth

theorem elementTexts_eq_map (style : DeclarationStyle) (depth : Nat)
    (elements : List (Bool × TypeExpr)) :
    elementTexts style depth elements = elements.map (elementText style depth) :=
  eq_map rfl (fun _ _ => by rw [elementTexts, elementText, textAt]) elements

/-- The text of a parameter. -/
def parameterText (style : DeclarationStyle) (depth : Nat) (parameter : String × TypeExpr) :
    String :=
  parameter.1 ++ ": " ++ parameter.2.text style depth

theorem parameterTexts_eq_map (style : DeclarationStyle) (depth : Nat)
    (parameters : List (String × TypeExpr)) :
    parameterTexts style depth parameters = parameters.map (parameterText style depth) :=
  eq_map rfl (fun _ _ => by rw [parameterTexts, parameterText]) parameters

/-! ## Tokens -/

/-- The mark between members. -/
def Operator.mark : Operator → Char
  | .union => '|'
  | .intersection => '&'

/-- Where members stand. -/
def Operator.position : Operator → Position
  | .union => .unionMember
  | .intersection => .intersectionMember

/-- Tokens in parentheses if they are needed. -/
def encloseTokens (needed : Bool) (tokens : List Token) : List Token :=
  if needed then .mark '(' :: (tokens ++ [.mark ')']) else tokens

/-- The tokens of a property. -/
def propertyTokens (readonly : Bool) (name : String) (optional : Bool) (type : List Token) :
    List Token :=
  (if readonly then [.word "readonly"] else []) ++
    keyToken name :: ((if optional then [.mark '?'] else []) ++ .mark ':' :: (type ++ [.mark ';']))

/-- The tokens of a type, with `readonly` before properties or without it. -/
def tokens (readonly : Bool) : TypeExpr → List Token
  | keyword k => [.word k.text]
  | literal value => [value.token]
  | reference name arguments =>
    .word name :: if arguments.isEmpty then []
      else .mark '<' :: ([.mark ','].intercalate (arguments.map (tokens readonly)) ++ [.mark '>'])
  | object properties =>
    .mark '{' :: ((properties.map fun property =>
      propertyTokens readonly property.1 property.2.1
        (tokens readonly property.2.2)).flatten ++ [.mark '}'])
  | array element =>
    encloseTokens (element.needsParentheses .arrayElement) (tokens readonly element) ++
      [.mark '[', .mark ']']
  | tuple elements =>
    .mark '[' :: ([.mark ','].intercalate (elements.map fun element =>
      encloseTokens (element.1 && element.2.needsParentheses .optionalElement)
        (tokens readonly element.2) ++
        if element.1 then [.mark '?'] else []) ++ [.mark ']'])
  | function parameters returns =>
    .mark '(' :: ([.mark ','].intercalate (parameters.map fun parameter =>
      .word parameter.1 :: .mark ':' :: tokens readonly parameter.2) ++
        .mark ')' :: .mark '=' :: .mark '>' :: tokens readonly returns)
  | union members =>
    [.mark '|'].intercalate (members.map fun member =>
      encloseTokens (member.needsParentheses .unionMember) (tokens readonly member))
  | intersection members =>
    [.mark '&'].intercalate (members.map fun member =>
      encloseTokens (member.needsParentheses .intersectionMember) (tokens readonly member))
  | parenthesized inner => .mark '(' :: (tokens readonly inner ++ [.mark ')'])
  termination_by type => sizeOf type
  decreasing_by
    all_goals simp only [reference.sizeOf_spec, object.sizeOf_spec, array.sizeOf_spec,
      tuple.sizeOf_spec, function.sizeOf_spec, union.sizeOf_spec, intersection.sizeOf_spec,
      parenthesized.sizeOf_spec]
    · have := List.sizeOf_lt_of_mem ‹_ ∈ arguments›; omega
    · have := sizeOf_type_lt_of_mem ‹_ ∈ properties›; omega
    · omega
    · have := sizeOf_snd_lt_of_mem ‹_ ∈ elements›; omega
    · have := sizeOf_snd_lt_of_mem ‹_ ∈ parameters›; omega
    · omega
    · have := List.sizeOf_lt_of_mem ‹_ ∈ members›; omega
    · have := List.sizeOf_lt_of_mem ‹_ ∈ members›; omega
    · omega

/-- The tokens of a type at a position. -/
def tokensAt (readonly : Bool) (position : Position) (type : TypeExpr) : List Token :=
  encloseTokens (type.needsParentheses position) (type.tokens readonly)

/-- Operators are treated alike. -/
theorem tokens_join (readonly : Bool) (operator : Operator) (members : List TypeExpr) :
    (operator.join members).tokens readonly =
      [.mark operator.mark].intercalate (members.map (tokensAt readonly operator.position)) := by
  cases operator <;> exact tokens.eq_def readonly _

/-! ## The tokens of a text -/

section

variable (style : DeclarationStyle)

theorem lexes_enclose {text : String} {read : List Token} (h : Lexes text read) (needed : Bool) :
    Lexes (enclose needed text) (encloseTokens needed read) := by
  cases needed with
  | false => exact h
  | true =>
    have hopen : Delimits "(" [.mark '('] := delimits_marks (by decide) (by decide)
    have hclose : Delimits ")" [.mark ')'] := delimits_marks (by decide) (by decide)
    exact ((hopen.leads.append h).append hclose).lexes

theorem leads_spaces (count : Nat) : Leads (spaces count) [] := fun rest => by
  rw [spaces, String.toList_ofList]
  exact tokens_spaces count rest

theorem leads_readonly : Leads "readonly " [.word "readonly"] :=
  have hword : Lexes "readonly" [.word "readonly"] := .name (by decide)
  have hspace : Delimits " " [] := delimits_marks (by decide) (by decide)
  hword.append hspace

theorem isBare_keyword (k : Keyword) : Identifier.isBare k.text = true := by
  cases k <;> decide

theorem isBare_of_isName {name : String} (h : isName name = true) :
    Identifier.isBare name = true := by
  rw [isName, Bool.and_eq_true, Bool.and_eq_true] at h
  exact h.1.1

theorem needsParentheses_top (type : TypeExpr) : type.needsParentheses .top = false := by
  cases type <;> rfl

/-- The tokens of the line of a property. -/
theorem leads_propertyText {property : String × Bool × TypeExpr} (depth : Nat)
    (h : Lexes (property.2.2.text style (depth + 1)) (property.2.2.tokens style.readonly)) :
    Leads (propertyText style depth property) (propertyTokens style.readonly property.1 property.2.1
      (property.2.2.tokens style.readonly)) := by
  have hreadonly : Leads (if style.readonly then "readonly " else "")
      (if style.readonly then [.word "readonly"] else []) := by
    split
    · exact leads_readonly
    · exact fun _ => rfl
  have hcolon : Delimits (if property.2.1 then "?: " else ": ")
      ((if property.2.1 then [.mark '?'] else []) ++ [.mark ':']) := by
    split
    · exact delimits_marks (by decide) (by decide)
    · exact delimits_marks (by decide) (by decide)
  have hend : Delimits ";\n" [.mark ';'] := delimits_marks (by decide) (by decide)
  -- the key, the sign, the type and the end of the line, from left to right
  have hkey := ((leads_spaces (style.indent * (depth + 1))).append_leads hreadonly).append
    (Lexes.propertyKey property.1)
  have hline := ((hkey.append hcolon).append h).append hend
  unfold propertyText propertyTokens
  simpa only [List.nil_append, List.append_assoc, List.cons_append] using hline

theorem lexes_intercalate_texts {separator : String} {marks : List Token}
    (hseparator : Delimits separator marks) (position : Position) {types : List TypeExpr}
    {depth : Nat} (h : ∀ type ∈ types, Lexes (type.text style depth) (type.tokens style.readonly)) :
    Lexes (separator.intercalate (texts style depth position types))
      (marks.intercalate (types.map (tokensAt style.readonly position))) := by
  rw [texts_eq_map]
  exact .intercalate hseparator (forall₂_map_map fun type htype => lexes_enclose (h type htype) _)

/-- The tokens of the text of a type. -/
theorem Printable.lexes_text {type : TypeExpr} (h : Printable type) (depth : Nat) :
    Lexes (type.text style depth) (type.tokens style.readonly) := by
  have hcomma : Delimits ", " [.mark ','] := delimits_marks (by decide) (by decide)
  -- deeper lines are indented further, which no token shows
  induction h generalizing depth with
  | keyword k =>
    rw [text, tokens]
    exact .name (isBare_keyword k)
  | @literal value finite =>
    rw [text, tokens]
    exact fun rest hrest => Literal.tokens_text value hrest
  | @reference name arguments hname _ ih =>
    have hlexes : Lexes name [.word name] := .name (isBare_of_isName hname)
    rw [tokens]
    cases arguments with
    | nil =>
      rw [text]
      exact hlexes
    | cons first rest =>
      have hopen : Delimits "<" [.mark '<'] := delimits_marks (by decide) (by decide)
      have hclose : Delimits ">" [.mark '>'] := delimits_marks (by decide) (by decide)
      have harguments :=
        lexes_intercalate_texts style hcomma .top fun argument h => ih argument h depth
      have htop : tokensAt style.readonly .top = tokens style.readonly := by
        funext type
        rw [tokensAt, needsParentheses_top]
        rfl
      -- arguments stand alone, like types at the top
      rw [htop] at harguments
      rw [text]
      exact (((hlexes.append hopen).append harguments).append hclose).lexes
  | @object properties _ ih =>
    rw [tokens]
    cases properties with
    | nil =>
      have hbraces : Delimits "\x7b\x7d" [.mark '{', .mark '}'] :=
        delimits_marks (by decide) (by decide)
      rw [text]
      exact hbraces.leads.lexes
    | cons first rest =>
      have hopen : Delimits "\x7b\n" [.mark '{'] := delimits_marks (by decide) (by decide)
      have hclose : Delimits "\x7d" [.mark '}'] := delimits_marks (by decide) (by decide)
      have hlines := Leads.join (forall₂_map_map (R := Leads) fun property hproperty =>
        leads_propertyText style depth (ih property hproperty (depth + 1)))
      -- the lines end with semicolons, so the closing brace needs no delimiter before it
      have hobject := ((hopen.leads.append_leads hlines).append_leads
        (leads_spaces (style.indent * depth))).append_leads hclose.leads
      rw [text, propertyTexts_eq_map]
      rw [List.append_nil] at hobject
      exact hobject.lexes
  | @array element _ ih =>
    have hbrackets : Delimits "[]" [.mark '[', .mark ']'] := delimits_marks (by decide) (by decide)
    rw [text, tokens]
    exact ((lexes_enclose (ih depth) _).append hbrackets).lexes
  | @tuple elements _ ih =>
    have hopen : Delimits "[" [.mark '['] := delimits_marks (by decide) (by decide)
    have hclose : Delimits "]" [.mark ']'] := delimits_marks (by decide) (by decide)
    have hoptional : Delimits "?" [.mark '?'] := delimits_marks (by decide) (by decide)
    rw [text, tokens, elementTexts_eq_map]
    refine ((hopen.leads.append (.intercalate hcomma (forall₂_map_map ?_))).append hclose).lexes
    rintro ⟨optional, type⟩ helement
    cases optional with
    | false =>
      -- no question mark, and no parentheses that one would ask for
      have htype := ih _ helement depth
      rw [← List.append_nil (type.tokens style.readonly)] at htype
      exact htype
    | true => exact ((lexes_enclose (ih _ helement depth) _).append hoptional).lexes
  | @function parameters returns hnames _ _ ih ihReturns =>
    have hopen : Delimits "(" [.mark '('] := delimits_marks (by decide) (by decide)
    have hcolon : Delimits ": " [.mark ':'] := delimits_marks (by decide) (by decide)
    have harrow : Delimits ") => " [.mark ')', .mark '=', .mark '>'] :=
      delimits_marks (by decide) (by decide)
    have hparameters := Lexes.intercalate hcomma (forall₂_map_map (f := parameterText style depth)
      fun parameter hparameter =>
        ((Lexes.name (isBare_of_isName (hnames parameter hparameter))).append hcolon).append
          (ih parameter hparameter depth))
    have hfunction := ((hopen.leads.append hparameters).append harrow).append (ihReturns depth)
    rw [text, tokens, parameterTexts_eq_map]
    simpa only [List.nil_append, List.append_assoc, List.cons_append] using hfunction
  | @join operator members _ _ ih =>
    cases operator with
    | union =>
      have hbar : Delimits " | " [.mark '|'] := delimits_marks (by decide) (by decide)
      change Lexes ((union members).text style depth) ((union members).tokens style.readonly)
      rw [text, tokens]
      exact lexes_intercalate_texts style hbar .unionMember fun member h => ih member h depth
    | intersection =>
      have hand : Delimits " & " [.mark '&'] := delimits_marks (by decide) (by decide)
      change Lexes ((intersection members).text style depth)
        ((intersection members).tokens style.readonly)
      rw [text, tokens]
      exact lexes_intercalate_texts style hand .intersectionMember fun member h => ih member h depth
  | @parenthesized inner _ ih =>
    rw [text, tokens]
    exact lexes_enclose (ih depth) true

end

end TypeExpr

end TypeGraph
