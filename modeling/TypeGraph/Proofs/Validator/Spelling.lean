import TypeGraph.Proofs.Lists
import TypeGraph.Proofs.Node.Names
import TypeGraph.Proofs.Validator.Levels
import TypeGraph.Proofs.Validator.Reading
import TypeGraph.Validator.Module

/-!
# Names in validators

What an emitter of validators writes for a node is written with the names of the node, and with
names of its own: the namespace of the dialect and its methods. None of its own names is an
identifier, whatever is defined, so that the identifiers in the text are those among the names of
the node.

Main results:

* `Validator.names_tokens`: the identifiers in the text of a validator.
-/

namespace TypeGraph

open Source

variable {definitions : DefinitionMap}

namespace Validator

/-- An expression that can be read, with methods or without, uses the names as far as they are
identifiers. -/
structure Spells (definitions : DefinitionMap) (expr : Expr) (used : List String) : Prop where
  readable : expr.Readable
  literal : ∀ value, expr ≠ .literal value
  names : definitions.among expr.names = definitions.among used

/-- The expressions of nodes use the names of the nodes. -/
abbrev SpellsAll (definitions : DefinitionMap) (exprs : List Expr) (nodes : List Node) : Prop :=
  List.Forall₂ (fun expr node => Spells definitions expr (Node.names node)) exprs nodes

theorem SpellsAll.readable {exprs : List Expr} {nodes : List Node}
    (h : SpellsAll definitions exprs nodes) : ∀ expr ∈ exprs, expr.Readable := by
  intro expr hexpr
  obtain ⟨node, -, hspells⟩ := exists_of_mem_forall₂ h hexpr
  exact hspells.readable

theorem SpellsAll.names {exprs : List Expr} {nodes : List Node}
    (h : SpellsAll definitions exprs nodes) :
    definitions.among (exprs.flatMap Expr.names) = definitions.among (nodes.flatMap Node.names) :=
  DefinitionMap.among_flatMap (h.imp fun _ _ hspells => hspells.names)

/-- A name that is no identifier is written where nothing is used. -/
theorem Spells.own {name : String} (hbare : Identifier.isBare name = true)
    (hname : definitions.contains name = false) : Spells definitions (.identifier name) [] where
  readable := .identifier hbare
  literal := fun _ h => Expr.noConfusion h
  names := by rw [Expr.names, DefinitionMap.among_cons_of_not hname]

/-- A method uses what its receiver and its arguments use. -/
theorem Spells.call {receiver : Expr} {used used' : List String}
    (h : Spells definitions receiver used) {method : String}
    (hmethod : Identifier.isBare method = true) {arguments : List Expr}
    (hreadable : ∀ argument ∈ arguments, argument.Readable)
    (hnames : definitions.among (arguments.flatMap Expr.names) = definitions.among used') :
    Spells definitions (.call receiver method arguments) (used ++ used') where
  readable := .call h.readable h.literal hmethod hreadable
  literal := fun _ h => Expr.noConfusion h
  names := by
    rw [Expr.names, DefinitionMap.among_append, DefinitionMap.among_append, h.names, hnames]

theorem Spells.array {exprs : List Expr} {nodes : List Node}
    (h : SpellsAll definitions exprs nodes) :
    Spells definitions (.array exprs) (nodes.flatMap Node.names) where
  readable := .array h.readable
  literal := fun _ h => Expr.noConfusion h
  names := by rw [Expr.names, h.names]

theorem Spells.object {properties : List (String × Expr)} {shape : List (String × Node)}
    (h : List.Forall₂ (fun property entry => Spells definitions property.2 (Node.names entry.2))
      properties shape) :
    Spells definitions (.object properties) ((shape.map Prod.snd).flatMap Node.names) where
  readable := by
    refine .object fun property hm => ?_
    obtain ⟨entry, -, hspells⟩ := exists_of_mem_forall₂ h hm
    exact hspells.readable
  literal := fun _ h => Expr.noConfusion h
  names := by
    rw [Expr.names, List.flatMap_map]
    exact DefinitionMap.among_flatMap (h.imp fun _ _ hspells => hspells.names)

section

variable {space name : String} (hspace : Spells definitions (.identifier space) [])
  (hname : Identifier.isBare name = true)

include hspace hname

/-- A method of a namespace uses what its arguments use. -/
theorem Spells.nullary : Spells definitions (.call (.identifier space) name []) [] :=
  hspace.call hname (fun _ h => absurd h List.not_mem_nil) rfl

theorem Spells.unary {argument : Expr} {used : List String} (h : Spells definitions argument used) :
    Spells definitions (.call (.identifier space) name [argument]) used :=
  hspace.call hname (List.forall_mem_singleton.mpr h.readable) (by simp [h.names])

theorem Spells.binary {first second : Expr} {used used' : List String}
    (h : Spells definitions first used) (h' : Spells definitions second used') :
    Spells definitions (.call (.identifier space) name [first, second]) (used ++ used') :=
  hspace.call hname
    (List.forall_mem_cons.mpr ⟨h.readable, List.forall_mem_singleton.mpr h'.readable⟩)
    (by simp [h.names, h'.names])

theorem Spells.literalMethod (value : Literal) :
    Spells definitions (.call (.identifier space) name [.literal value]) value.words :=
  hspace.call hname (List.forall_mem_singleton.mpr (.literal value))
    (by simp [Expr.names, Literal.words])

end

/-- A reference is written as its identifier. -/
theorem Spells.reference (h : definitions.Proper) {identifier : String}
    (hcontains : definitions.contains identifier = true) :
    Spells definitions (.identifier identifier) [identifier] where
  readable := .identifier
    (Identifier.isBare_of_isTypeName (h identifier (OrderedMap.contains_iff.mp hcontains)).1)
  literal := fun _ h => Expr.noConfusion h
  names := by rw [Expr.names]

/-! ## Zod -/

namespace Zod

theorem spells_namespace (h : definitions.Proper) : Spells definitions (.identifier "z") [] :=
  .own (by decide) (h.contains_eq_false (.inl (by decide)))

theorem spells_primitive (h : definitions.Proper) (kind : Primitive) :
    Spells definitions (ofPrimitive kind) [] := by
  have hz := spells_namespace h
  cases kind with
  | regexp => exact hz.unary (by decide) (.own (by decide) (h.contains_eq_false (.inr (by decide))))
  | _ => exact hz.nullary (by decide)

theorem spells_conjunction {first : Expr} {used : List String}
    (hfirst : Spells definitions first used) {exprs : List Expr} {nodes : List Node}
    (h : SpellsAll definitions exprs nodes) :
    Spells definitions (conjunction first exprs) (used ++ nodes.flatMap Node.names) := by
  unfold conjunction
  -- each further expression becomes the argument of a method of those before it
  induction h generalizing first used with
  | nil => simpa using hfirst
  | @cons second node _ _ hsecond _ ih =>
    have hboth : Spells definitions (.call first "and" [second]) (used ++ node.names) :=
      hfirst.call (by decide) (List.forall_mem_singleton.mpr hsecond.readable)
        (by simpa using hsecond.names)
    simpa using ih hboth

theorem spells_function (h : definitions.Proper) {parameters : List Expr} {nodes : List Node}
    (hparameters : SpellsAll definitions parameters nodes) {returns : Option Expr}
    {result : Option Node} (hreturns : SpellsAll definitions returns.toList result.toList) :
    Spells definitions (function parameters returns)
      ((nodes ++ result.toList).flatMap Node.names) := by
  have hz := spells_namespace h
  have htuple :
      Spells definitions (method "tuple" [.array parameters]) (nodes.flatMap Node.names) :=
    hz.unary (by decide) (.array hparameters)
  rw [List.flatMap_append]
  cases returns with
  | none =>
    cases result with
    | some => cases hreturns
    | none =>
      rw [Option.toList_none, List.flatMap_nil, List.append_nil]
      unfold function
      cases hparameters with
      | nil => exact hz.nullary (by decide)
      | cons => exact hz.unary (by decide) htuple
  | some returns =>
    -- with a result, parameters are written even if there are none
    cases result with
    | none => cases hreturns
    | some result =>
      obtain ⟨hspells, -⟩ := List.forall₂_cons.mp hreturns
      rw [Option.toList_some, List.flatMap_singleton]
      exact hz.binary (by decide) htuple hspells

/-- A level uses what its parts use. -/
theorem Level.spells (hproper : definitions.Proper) {expr : Expr} {node : Node}
    (h : Level definitions (fun expr part => Spells definitions expr part.names) expr node) :
    Spells definitions expr node.names := by
  have hz := spells_namespace hproper
  cases h with
  | primitive kind =>
    rw [Node.names_eq (by simp [Node.kind])]
    exact spells_primitive hproper kind
  | literal value =>
    rw [Node.names]
    exact hz.literalMethod (by decide) value
  | array inside | set inside =>
    rw [Node.names_eq (by simp [Node.kind]), Node.children, List.flatMap_singleton]
    exact hz.unary (by decide) inside
  | record keys values | map keys values =>
    rw [Node.names_eq (by simp [Node.kind]), Node.children, List.flatMap_cons,
      List.flatMap_singleton]
    exact hz.binary (by decide) keys values
  | object slots =>
    rw [Node.names_eq (by simp [Node.kind])]
    exact hz.unary (by decide) (.object (slots.imp fun _ _ hslot => hslot.2))
  | single inside =>
    rw [Node.names_eq (by simp [Node.kind]), Node.children, List.flatMap_singleton]
    exact inside
  | @optional inner _ _ _ content _ left part =>
    -- the mark has no arguments, and what is left of the union has all its names
    have hmarked : Spells definitions (.call inner "optional" []) (content.names ++ []) :=
      part.call (by decide) (fun _ h => absurd h List.not_mem_nil) rfl
    rw [← Node.names_of_presence left]
    simpa using hmarked
  | union _ members | tuple members =>
    rw [Node.names_eq (by simp [Node.kind])]
    exact hz.unary (by decide) (.array members)
  | intersection head members =>
    rw [Node.names_eq (by simp [Node.kind])]
    exact spells_conjunction head members
  | procedure arguments =>
    rw [Node.names_eq (by simp [Node.kind])]
    exact spells_function hproper arguments .nil
  | function arguments result =>
    rw [Node.names_eq (by simp [Node.kind])]
    exact spells_function hproper arguments (.cons result .nil)
  | reference defined =>
    rw [Node.names]
    exact .reference hproper defined

/-- The validator of a node uses the names of the node. -/
theorem spells_ofNode (hproper : definitions.Proper) (node : Node) {expr : Expr}
    (h : ofNode definitions node = .ok expr) : Spells definitions expr node.names :=
  ofNode_induction (motive := fun expr node => Spells definitions expr node.names)
    (fun _ _ hlevel => hlevel.spells hproper) h

end Zod

/-! ## TypeBox -/

namespace TypeBox

theorem spells_namespace (h : definitions.Proper) : Spells definitions (.identifier "Type") [] :=
  .own (by decide) (h.contains_eq_false (.inr (by decide)))

theorem spells_primitive (h : definitions.Proper) {kind : Primitive} {expr : Expr}
    (hexpr : ofPrimitive kind = .ok expr) : Spells definitions expr [] := by
  have htype := spells_namespace h
  cases kind with
  | bigint => cases hexpr
  | _ =>
    cases hexpr
    exact htype.nullary (by decide)

theorem spells_literal (h : definitions.Proper) {value : Literal} {expr : Expr}
    (hexpr : ofLiteral value = .ok expr) : Spells definitions expr value.words := by
  have htype := spells_namespace h
  cases value with
  | null =>
    cases hexpr
    -- the word of the literal is not written, and no identifier
    have hwords : definitions.among Literal.null.words = [] :=
      (h.among_words .null).mpr fun _ _ h => Literal.noConfusion h
    have hnull : Spells definitions (method "Null" []) [] := htype.nullary (by decide)
    exact ⟨hnull.readable, hnull.literal, hnull.names.trans hwords.symm⟩
  | bigint => cases hexpr
  | _ =>
    cases hexpr
    exact htype.literalMethod (by decide) _

/-- The validator of a property uses the names of the node. -/
theorem Fills.spells (hproper : definitions.Proper) {expr : Expr} {node : Node}
    (h : Fills (fun expr part => Spells definitions expr part.names) expr node) :
    Spells definitions expr node.names := by
  have htype := spells_namespace hproper
  cases h with
  | unmarked _ whole => exact whole
  | vacant _ nothing =>
    rw [Node.names_of_vacant nothing]
    exact htype.unary (by decide) (htype.nullary (by decide))
  | marked _ left part =>
    rw [← Node.names_of_presence left]
    exact htype.unary (by decide) part

/-- A level uses what its parts use. -/
theorem Level.spells (hproper : definitions.Proper) {expr : Expr} {node : Node}
    (h : Level definitions (fun expr part => Spells definitions expr part.names) expr node) :
    Spells definitions expr node.names := by
  have htype := spells_namespace hproper
  cases h with
  | primitive written =>
    rw [Node.names_eq (by simp [Node.kind])]
    exact spells_primitive hproper written
  | literal written =>
    rw [Node.names]
    exact spells_literal hproper written
  | array inside =>
    rw [Node.names_eq (by simp [Node.kind]), Node.children, List.flatMap_singleton]
    exact htype.unary (by decide) inside
  | record keys values =>
    rw [Node.names_eq (by simp [Node.kind]), Node.children, List.flatMap_cons,
      List.flatMap_singleton]
    exact htype.binary (by decide) keys values
  | object slots =>
    rw [Node.names_eq (by simp [Node.kind])]
    exact htype.unary (by decide) (.object (slots.imp fun _ _ hslot => hslot.2.spells hproper))
  | single inside =>
    rw [Node.names_eq (by simp [Node.kind]), Node.children, List.flatMap_singleton]
    exact inside
  | union members | tuple members | intersection members =>
    rw [Node.names_eq (by simp [Node.kind])]
    exact htype.unary (by decide) (.array members)
  | procedure arguments =>
    -- the method in place of a result uses no name of its own
    rw [Node.names_eq (by simp [Node.kind]), Node.children, List.flatMap_append]
    exact htype.binary (by decide) (.array arguments) (htype.nullary (by decide))
  | function arguments result =>
    rw [Node.names_eq (by simp [Node.kind]), Node.children, List.flatMap_append,
      Option.toList_some, List.flatMap_singleton]
    exact htype.binary (by decide) (.array arguments) result
  | reference defined =>
    rw [Node.names]
    exact .reference hproper defined

/-- The validator of a node uses the names of the node. -/
theorem spells_ofNode (hproper : definitions.Proper) (node : Node) {expr : Expr}
    (h : ofNode definitions node = .ok expr) : Spells definitions expr node.names :=
  ofNode_induction (motive := fun expr node => Spells definitions expr node.names)
    (fun _ _ hlevel => hlevel.spells hproper) h

end TypeBox

/-- The identifiers in the text of a validator are those among the names of the node. -/
theorem names_tokens (h : definitions.Proper) {dialect : Dialect} {node : Node} {text : String}
    (htext : emit dialect definitions node = .ok text) :
    definitions.among (Source.names (Source.tokens text.toList)) =
      definitions.among node.names := by
  obtain ⟨expr, hexpr, htext⟩ := exists_of_bind_eq_ok htext
  have hspells : Spells definitions expr node.names := by
    cases dialect with
    | zod => exact Zod.spells_ofNode h node hexpr
    | typeBox => exact TypeBox.spells_ofNode h node hexpr
  cases htext
  -- the text is the tokens of the expression, and nothing behind them
  have htokens := hspells.readable.lexes_text.1 [] ends_nil
  rw [List.append_nil, tokens_nil, List.append_nil] at htokens
  have huses := (hspells.readable.uses_tokens [] rfl).2
  rw [List.append_nil, Source.names, List.append_nil] at huses
  rw [htokens, huses, hspells.names]

end Validator

end TypeGraph
