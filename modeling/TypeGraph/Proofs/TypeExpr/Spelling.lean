import TypeGraph.Proofs.Emission.Faults
import TypeGraph.Proofs.Lists
import TypeGraph.Proofs.Node.Names
import TypeGraph.Proofs.TypeExpr.Levels
import TypeGraph.Proofs.TypeExpr.Tokens
import TypeGraph.TypeExpr.Printer

/-!
# Names in types

What is written for a node as a type is written with the names of the node, and with names of its
own: classes of the language, keywords, names of parameters. None of its own names is an identifier,
whatever is defined, so that the identifiers in the text are those that the node mentions.

Main results:

* `TypeExpr.names_tokens`: the identifiers in the text of a type.
-/

namespace TypeGraph

open Source

variable {definitions : DefinitionMap}

namespace TypeExpr

/-- A type name is neither a keyword nor a literal. -/
theorem isName_of_isTypeName {name : String} (h : Identifier.isTypeName name = true) :
    isName name = true := by
  have hkeyword : Keyword.ofText? name = none := by
    rw [Keyword.ofText?, List.find?_eq_none]
    rintro k - htext
    rw [beq_iff_eq] at htext
    rw [← htext] at h
    -- keywords start in lower case
    exact absurd h (by cases k <;> decide)
  have hliteral : (name == "true" || name == "false" || name == "null") = false := by
    simp only [Bool.or_eq_false_iff, beq_eq_false_iff_ne]
    refine ⟨⟨?_, ?_⟩, ?_⟩ <;>
    · rintro rfl
      exact absurd h (by decide)
  rw [isName, Identifier.isBare_of_isTypeName h, hkeyword, hliteral]
  rfl

theorem isName_parameter (i : Nat) : isName ("args_" ++ toString i) = true := by
  have hbare : Identifier.isBare ("args_" ++ toString i) = true := by
    have hparts : (toString i).toList.all Identifier.isPart = true := by
      have hall := Identifier.all_toString i
      simp only [List.all_eq_true] at hall ⊢
      exact fun c hc => by simp [Identifier.isPart, hall c hc]
    rw [Identifier.isBare, String.toList_append,
      show "args_".toList ++ (toString i).toList =
        'a' :: ("rgs_".toList ++ (toString i).toList) from rfl]
    dsimp only
    rw [List.all_append, hparts]
    decide
  -- no keyword and no literal starts like a parameter
  have hdiffers (word : String) (hword : word.toList.take 5 ≠ "args_".toList) :
      "args_" ++ toString i ≠ word := by
    rintro rfl
    exact hword (by simp [String.toList_append])
  have hkeyword : Keyword.ofText? ("args_" ++ toString i) = none := by
    rw [Keyword.ofText?, List.find?_eq_none]
    rintro k - htext
    exact hdiffers k.text (by cases k <;> decide) (beq_iff_eq.mp htext).symm
  rw [isName, hbare, hkeyword, beq_false_of_ne (hdiffers "true" (by decide)),
    beq_false_of_ne (hdiffers "false" (by decide)), beq_false_of_ne (hdiffers "null" (by decide))]
  rfl

/-- A type that can be printed uses the names as far as they are identifiers. -/
structure Spells (definitions : DefinitionMap) (type : TypeExpr) (used : List String) : Prop where
  printable : Printable type
  names : ∀ readonly, definitions.among (type.names readonly) = definitions.among used

/-- The types of nodes use what the nodes mention. -/
abbrev SpellsAll (definitions : DefinitionMap) (types : List TypeExpr) (nodes : List Node) : Prop :=
  List.Forall₂ (fun type node => Spells definitions type (Node.mentions node)) types nodes

theorem SpellsAll.printable {types : List TypeExpr} {nodes : List Node}
    (h : SpellsAll definitions types nodes) : ∀ type ∈ types, Printable type := by
  intro type htype
  obtain ⟨node, -, hspells⟩ := exists_of_mem_forall₂ h htype
  exact hspells.printable

theorem SpellsAll.names {types : List TypeExpr} {nodes : List Node}
    (h : SpellsAll definitions types nodes) (readonly : Bool) :
    definitions.among (types.flatMap (names readonly)) =
      definitions.among (nodes.flatMap Node.mentions) :=
  DefinitionMap.among_flatMap (h.imp fun _ _ hspells => hspells.names readonly)

/-- A name with the types that it is applied to. -/
theorem Spells.applied {name : String} (hname : Identifier.isTypeName name = true)
    (hown : definitions.contains name = false) {types : List TypeExpr} {nodes : List Node}
    (h : SpellsAll definitions types nodes) :
    Spells definitions (reference name types) (nodes.flatMap Node.mentions) where
  printable := .reference (isName_of_isTypeName hname) h.printable
  names readonly := by rw [TypeExpr.names, DefinitionMap.among_cons_of_not hown, h.names]

theorem Spells.join (operator : Operator) {types : List TypeExpr} {nodes : List Node}
    (hne : types ≠ []) (h : SpellsAll definitions types nodes) :
    Spells definitions (operator.join types) (nodes.flatMap Node.mentions) where
  printable := .join operator hne h.printable
  names readonly := by rw [names_join, h.names]

theorem Spells.function {types : List TypeExpr} {nodes : List Node}
    (h : SpellsAll definitions types nodes) {returns : TypeExpr} {used : List String}
    (hreturns : Spells definitions returns used) :
    Spells definitions (function (parametersOf types) returns)
      (nodes.flatMap Node.mentions ++ used) where
  printable := by
    refine .function ?_ ?_ hreturns.printable
    · intro parameter hm
      obtain ⟨i, hi, rfl⟩ := List.mem_mapIdx.mp hm
      exact isName_parameter i
    · intro parameter hm
      obtain ⟨i, hi, rfl⟩ := List.mem_mapIdx.mp hm
      exact h.printable _ (List.getElem_mem hi)
  names readonly := by
    -- which names the parameters are given does not matter
    have htypes : (parametersOf types).flatMap (fun parameter => parameter.2.names readonly) =
        types.flatMap (TypeExpr.names readonly) := by
      conv_rhs => rw [← map_snd_parametersOf types, List.flatMap_map]
    rw [TypeExpr.names, htypes, DefinitionMap.among_append, DefinitionMap.among_append, h.names,
      hreturns.names]

theorem Spells.object (hproper : definitions.Proper) {properties : List (String × Bool × TypeExpr)}
    {shape : List (String × Node)}
    (h : List.Forall₂ (fun property entry =>
      Spells definitions property.2.2 (Node.mentions entry.2)) properties shape) :
    Spells definitions (object properties) ((shape.map Prod.snd).flatMap Node.mentions) where
  printable := by
    refine .object fun property hm => ?_
    obtain ⟨entry, -, hspells⟩ := exists_of_mem_forall₂ h hm
    exact hspells.printable
  names readonly := by
    -- the keyword before each property is no identifier
    have hreadonly : definitions.among (if readonly then ["readonly"] else []) = [] := by
      cases readonly with
      | false => rfl
      | true =>
        exact DefinitionMap.among_cons_of_not (hproper.contains_eq_false (.inl (by decide))) []
    rw [TypeExpr.names, List.flatMap_map]
    refine DefinitionMap.among_flatMap (h.imp fun property entry hspells => ?_)
    rw [DefinitionMap.among_append, hreadonly, List.nil_append, hspells.names]

theorem Spells.tuple {elements : List (Bool × TypeExpr)} {nodes : List Node}
    (h : List.Forall₂ (fun element node => Spells definitions element.2 (Node.mentions node))
      elements nodes) :
    Spells definitions (tuple elements) (nodes.flatMap Node.mentions) where
  printable := by
    refine .tuple fun element hm => ?_
    obtain ⟨node, -, hspells⟩ := exists_of_mem_forall₂ h hm
    exact hspells.printable
  names readonly := by
    rw [TypeExpr.names]
    exact DefinitionMap.among_flatMap (h.imp fun _ _ hspells => hspells.names readonly)

theorem spells_keyword (h : definitions.Proper) (k : Keyword) :
    Spells definitions (keyword k) [] where
  printable := .keyword k
  names readonly := by
    have hkeyword : Identifier.isTypeName k.text = false := by cases k <;> decide
    rw [TypeExpr.names, DefinitionMap.among_cons_of_not (h.contains_eq_false (.inl hkeyword))]

theorem spells_primitive (h : definitions.Proper) (kind : Primitive) :
    Spells definitions (ofPrimitive kind) [] := by
  cases kind with
  | null =>
    have hwords : definitions.among Literal.null.words = [] :=
      (h.among_words .null).mpr fun _ _ h => Literal.noConfusion h
    refine ⟨.literal (fun _ h => Literal.noConfusion h), fun readonly => ?_⟩
    rw [ofPrimitive.eq_def, names, hwords]
    rfl
  | date | regexp =>
    have harguments : SpellsAll definitions [] [] := .nil
    exact Spells.applied (by decide) (h.contains_eq_false (.inr (by decide))) harguments
  | _ => exact spells_keyword h _

/-- The type of a literal uses no identifier, since its number is finite. -/
theorem spells_literal (hproper : definitions.Proper) {value : Literal} {type : TypeExpr}
    (h : ofLiteral value = .ok type) : Spells definitions type [] := by
  -- numbers without a type are turned down
  have hprintable : type = .literal value ∧ ∀ x, value = .number x → x.isFinite = true := by
    unfold ofLiteral at h
    split at h
    · rename_i x
      split at h
      · cases h
        exact ⟨rfl, fun y hy => by cases hy; assumption⟩
      · cases h
    · rename_i hnumber
      cases h
      exact ⟨rfl, fun x hx => (hnumber x hx).elim⟩
  obtain ⟨rfl, hfinite⟩ := hprintable
  have hwords : definitions.among value.words = [] := by
    refine (hproper.among_words value).mpr fun x name hx hname => ?_
    rw [Binary64.spelling?_of_isFinite (hfinite x hx)] at hname
    cases hname
  exact ⟨.literal hfinite, fun readonly => by rw [names, hwords, DefinitionMap.among_nil]⟩

/-- The type in a slot uses what the node mentions. -/
theorem Fills.spells (hproper : definitions.Proper) {slot : Bool × TypeExpr} {node : Node}
    (h : Fills (fun type content => Spells definitions type content.mentions) slot node) :
    Spells definitions slot.2 node.mentions := by
  -- what is left of the node without `undefined` mentions the same
  cases h with
  | required _ whole => exact whole
  | vacant _ nothing =>
    rw [← Node.mentions_withoutUndefined node, nothing]
    exact spells_keyword hproper _
  | optional _ left part =>
    rwa [← Node.mentions_withoutUndefined node, left]

/-- A level uses what its parts use. -/
theorem Level.spells (hproper : definitions.Proper) {type : TypeExpr} {node : Node}
    (h : Level definitions (fun type part => Spells definitions type part.mentions) type node) :
    Spells definitions type node.mentions := by
  -- the generic types are reserved, so that no definition takes their names
  have hown {name : String} (hname : name ∈ Registry.reservedNames) :
      definitions.contains name = false :=
    hproper.contains_eq_false (.inr hname)
  cases h with
  | primitive kind => exact spells_primitive hproper kind
  | literal written => exact spells_literal hproper written
  | array inside =>
    rw [Node.mentions]
    exact ⟨.array inside.printable, fun readonly => by rw [names, inside.names]⟩
  | set inside =>
    rw [Node.mentions_eq Kind.noConfusion]
    exact .applied (by decide) (hown (by decide)) (.cons inside .nil)
  | record keys values | map keys values =>
    rw [Node.mentions_eq Kind.noConfusion]
    exact .applied (by decide) (hown (by decide)) (.cons keys (.cons values .nil))
  | object slots =>
    rw [Node.mentions_eq Kind.noConfusion]
    exact .object hproper (slots.imp fun _ _ hslot => hslot.2.spells hproper)
  | single inside =>
    rw [Node.mentions_eq Kind.noConfusion]
    exact (List.flatMap_singleton Node.mentions _).symm ▸ inside
  | union members =>
    -- a union of one member is written as the member
    rw [Node.mentions_eq Kind.noConfusion]
    exact .join .union (List.ne_nil_of_length_eq_add_one members.length_eq) members
  | tuple slots =>
    rw [Node.mentions_eq Kind.noConfusion]
    exact .tuple (slots.imp fun _ _ hslot => hslot.spells hproper)
  | intersection members =>
    rw [Node.mentions_eq Kind.noConfusion]
    exact .join .intersection (List.ne_nil_of_length_eq_add_one members.length_eq) members
  | procedure arguments =>
    rw [Node.mentions_eq Kind.noConfusion, Node.children, List.flatMap_append]
    exact .function arguments (spells_keyword hproper _)
  | function arguments result =>
    rw [Node.mentions_eq Kind.noConfusion, Node.children, List.flatMap_append, Option.toList_some,
      List.flatMap_singleton]
    exact .function arguments result
  | @reference identifier _ defined =>
    have hname := (hproper identifier (OrderedMap.contains_iff.mp defined)).1
    refine ⟨.reference (isName_of_isTypeName hname) fun _ h => absurd h List.not_mem_nil,
      fun readonly => ?_⟩
    rw [names, Node.mentions]
    rfl

/-- The type of a node uses what the node mentions. -/
theorem spells_ofNode (hproper : definitions.Proper) (node : Node) {type : TypeExpr}
    (h : ofNode definitions node = .ok type) : Spells definitions type node.mentions :=
  ofNode_induction (motive := fun type node => Spells definitions type node.mentions)
    (fun _ _ hlevel => hlevel.spells hproper) h

/-- The identifiers in the text of a type are those that the node mentions. -/
theorem names_tokens (h : definitions.Proper) (style : DeclarationStyle) {node : Node}
    {type : TypeExpr} (htype : ofNode definitions node = .ok type) :
    definitions.among (Source.names (Source.tokens (type.print style).toList)) =
      definitions.among node.mentions := by
  have hspells := spells_ofNode h node htype
  have hlexes : Lexes (type.text style 0) (type.tokens style.readonly) :=
    hspells.printable.lexes_text style 0
  -- nothing comes behind the type, neither text nor tokens
  have htokens := hlexes [] ends_nil
  rw [List.append_nil, tokens_nil, List.append_nil] at htokens
  have huses := (hspells.printable.uses_tokens style.readonly [] rfl).2
  rw [List.append_nil, Source.names, List.append_nil] at huses
  rw [print, htokens, huses, hspells.names]

end TypeExpr

end TypeGraph
