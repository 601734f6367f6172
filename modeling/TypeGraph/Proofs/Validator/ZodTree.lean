import TypeGraph.Validator.Module
import TypeGraph.Proofs.Node.Normal
import TypeGraph.Proofs.Text.TypeName
import TypeGraph.Proofs.Validator.Levels
import TypeGraph.Proofs.Validator.Reading

/-!
# What Zod validators say

A Zod validator is built by methods, and the tree of these methods is what it says about a type. The
tree of a node is told without looking at text (`Tree.ofNode`): unions and intersections of one
member are the member, a union that admits `undefined` beside something else is what is left of it,
marked optional, an intersection joins its members two by two, and display names do not count.

From the text of the validator the tree can be read, so that no two types with different trees share
a text. Which words of the text are literals is told by the method that they are passed to;
not-a-number aside, a literal is known from its word.

Main results:

* `denotes_ofNode`: the validator of a node says what the node is.
* `tree_eq_of_emit_eq`: nodes with the same validator text have the same tree.
-/

namespace TypeGraph.Validator.Zod

/-- A Zod validator, by the methods that build it. -/
inductive Tree where
  | primitive (kind : Primitive)
  | literal (value : Literal)
  | array (element : Tree)
  | set (element : Tree)
  | record (key value : Tree)
  | map (key value : Tree)
  | object (shape : List (String × Tree))
  | union (members : List Tree)
  | tuple (elements : List Tree)
  /-- Both of two validators, `first.and(second)`. -/
  | both (first second : Tree)
  | function (parameters : List Tree) (returns : Option Tree)
  /-- What a validator accepts, and `undefined`. -/
  | optional (content : Tree)
  | reference (identifier : String)

namespace Tree

/-- What the validator of a node says. -/
def ofNode (node : Node) : Tree :=
  match node with
  | .primitive kind => primitive kind
  | .literal value => literal value.canonical
  | .array element => array (ofNode element)
  | .set element => set (ofNode element)
  | .record key value => record (ofNode key) (ofNode value)
  | .map key value => map (ofNode key) (ofNode value)
  | .object shape => object (shape.map fun property => (property.1, ofNode property.2))
  | .union first [] => ofNode first
  | .union first (second :: rest) =>
    match (Node.union first (second :: rest)).presence with
    | .optional content _ => optional (ofNode content)
    -- required, or `undefined` several times and nothing else
    | _ => union (ofNode first :: ofNode second :: rest.map ofNode)
  | .tuple first rest => tuple (ofNode first :: rest.map ofNode)
  | .intersection first rest => (rest.map ofNode).foldl both (ofNode first)
  | .function parameters none => function (parameters.map ofNode) none
  | .function parameters (some returns) => function (parameters.map ofNode) (some (ofNode returns))
  | .reference identifier _ => reference identifier
  termination_by sizeOf node
  decreasing_by
    all_goals first
      | assumption
      | exact Node.sizeOf_lt_of_mem_children (List.mem_map_of_mem ‹_ ∈ shape›)
      | exact Node.sizeOf_lt_of_mem_children (by simp_all [Node.children])

section

variable {first second : Node} {rest : List Node}

theorem ofNode_of_optional {content : Node}
    {smaller : sizeOf content < sizeOf (Node.union first (second :: rest))}
    (h : (Node.union first (second :: rest)).presence = .optional content smaller) :
    ofNode (.union first (second :: rest)) = optional (ofNode content) := by
  rw [ofNode, h]

theorem ofNode_of_not_optional
    (h : ∀ content smaller, (Node.union first (second :: rest)).presence ≠
      .optional content smaller) :
    ofNode (.union first (second :: rest)) =
      union (ofNode first :: ofNode second :: rest.map ofNode) := by
  rw [ofNode]
  split
  · exact absurd ‹_› (h _ _)
  · rfl

end

/-! ### The tree of an expression -/

/-- The literal that an expression is. -/
def literal? : Expr → Option Literal
  | .identifier word => Literal.ofWord? word
  | .literal value => some value
  | _ => none

mutual

/-- What an expression says, if it is one of a validator. -/
def ofExpr? : Expr → Option Tree
  | .identifier name => some (reference name)
  | .call (.identifier "z") "literal" [value] => (literal? value).map literal
  | .call (.identifier "z") "array" [element] => (ofExpr? element).map array
  | .call (.identifier "z") "set" [element] => (ofExpr? element).map set
  | .call (.identifier "z") "record" [key, value] =>
    do return record (← ofExpr? key) (← ofExpr? value)
  | .call (.identifier "z") "map" [key, value] => do return map (← ofExpr? key) (← ofExpr? value)
  | .call (.identifier "z") "object" [.object shape] => (ofShape? shape).map object
  | .call (.identifier "z") "union" [.array members] => (ofAll? members).map union
  | .call (.identifier "z") "tuple" [.array elements] => (ofAll? elements).map tuple
  | .call (.identifier "z") "function" [] => some (function [] none)
  | .call (.identifier "z") "function" [.call _ _ [.array parameters]] => do
    return function (← ofAll? parameters) none
  | .call (.identifier "z") "function" [.call _ _ [.array parameters], returns] => do
    return function (← ofAll? parameters) (some (← ofExpr? returns))
  | .call (.identifier "z") "instanceof" [_] => some (primitive .regexp)
  -- primitives are named after their methods, and calls of `z` come before calls of other receivers
  | .call (.identifier "z") name [] =>
    (Primitive.all.find? fun kind => kind.name == name).map primitive
  | .call receiver "optional" [] => (ofExpr? receiver).map optional
  | .call receiver "and" [other] => do return both (← ofExpr? receiver) (← ofExpr? other)
  | _ => none

def ofAll? : List Expr → Option (List Tree)
  | [] => some []
  | expr :: rest => do return (← ofExpr? expr) :: (← ofAll? rest)

def ofShape? : List (String × Expr) → Option (List (String × Tree))
  | [] => some []
  | (name, expr) :: rest => do return (name, ← ofExpr? expr) :: (← ofShape? rest)

end

end Tree

/-! ## Reading -/

/-- An expression that can be read says what a tree says, and more can be said behind it. -/
structure Denotes (expr : Expr) (tree : Tree) : Prop where
  readable : expr.Readable
  literal : ∀ value, expr ≠ .literal value
  receiver : expr.words ≠ .identifier "z"
  tree : Tree.ofExpr? expr.words = some tree

theorem words_method (name : String) (arguments : List Expr) :
    (method name arguments).words = method name (arguments.map Expr.words) := by
  rw [method, Expr.words, Expr.words]
  rfl

/-- A method of the namespace says what is read of its arguments. -/
theorem Denotes.of_method {name : String} {arguments : List Expr} {tree : Tree}
    (hname : Identifier.isBare name = true) (hreadable : ∀ argument ∈ arguments, argument.Readable)
    (h : Tree.ofExpr? (method name (arguments.map Expr.words)) = some tree) :
    Denotes (method name arguments) tree where
  readable := .call (.identifier (by decide)) (fun _ h => Expr.noConfusion h) hname hreadable
  literal := fun _ h => Expr.noConfusion h
  receiver := by
    rw [words_method]
    exact fun h => Expr.noConfusion h
  tree := by rw [words_method, h]

theorem ofExpr?_optional {receiver : Expr} (h : receiver ≠ .identifier "z") :
    Tree.ofExpr? (.call receiver "optional" []) = (Tree.ofExpr? receiver).map .optional := by
  rw [Tree.ofExpr?]
  exact h

theorem Denotes.optional {expr : Expr} {tree : Tree} (h : Denotes expr tree) :
    Denotes (.call expr "optional" []) (.optional tree) where
  readable := .call h.readable h.literal (by decide) (fun _ h => absurd h List.not_mem_nil)
  literal := fun _ h => Expr.noConfusion h
  receiver := by
    rw [Expr.words]
    exact fun h => Expr.noConfusion h
  tree := by
    rw [Expr.words, List.map_nil, ofExpr?_optional h.receiver, h.tree]
    rfl

theorem Denotes.both {first second : Expr} {tree tree' : Tree} (h : Denotes first tree)
    (h' : Denotes second tree') :
    Denotes (.call first "and" [second]) (.both tree tree') where
  readable := .call h.readable h.literal (by decide) (List.forall_mem_singleton.mpr h'.readable)
  literal := fun _ h => Expr.noConfusion h
  receiver := by
    rw [Expr.words]
    exact fun h => Expr.noConfusion h
  tree := by
    rw [Expr.words, List.map_singleton, Tree.ofExpr?, h.tree, h'.tree]
    rfl

theorem Denotes.conjunction {first : Expr} {tree : Tree} (h : Denotes first tree)
    {exprs : List Expr} {trees : List Tree} (hexprs : List.Forall₂ Denotes exprs trees) :
    Denotes (Zod.conjunction first exprs) (trees.foldl .both tree) := by
  unfold Zod.conjunction
  induction hexprs generalizing first tree with
  | nil => exact h
  | cons hsecond _ ih => exact ih (h.both hsecond)

theorem readable_of_denotes {exprs : List Expr} {trees : List Tree}
    (h : List.Forall₂ Denotes exprs trees) : ∀ expr ∈ exprs, expr.Readable := by
  intro expr hexpr
  obtain ⟨tree, -, hdenotes⟩ := exists_of_mem_forall₂ h hexpr
  exact hdenotes.readable

theorem ofAll?_words {exprs : List Expr} {trees : List Tree}
    (h : List.Forall₂ Denotes exprs trees) : Tree.ofAll? (exprs.map Expr.words) = some trees := by
  induction h with
  | nil => rfl
  | cons hfirst _ ih =>
    rw [List.map_cons, Tree.ofAll?, hfirst.tree, ih]
    rfl

theorem ofShape?_words {shape : List (String × Expr)} {trees : List (String × Tree)}
    (h : List.Forall₂ (fun property tree => property.1 = tree.1 ∧ Denotes property.2 tree.2)
      shape trees) :
    Tree.ofShape? (shape.map fun property => (property.1, property.2.words)) = some trees := by
  induction h with
  | nil => rfl
  | cons hfirst _ ih =>
    rw [List.map_cons, Tree.ofShape?, hfirst.1, hfirst.2.tree, ih]
    rfl

theorem denotes_primitive (kind : Primitive) : Denotes (ofPrimitive kind) (.primitive kind) := by
  cases kind with
  | regexp =>
    exact .of_method (by decide) (List.forall_mem_singleton.mpr (.identifier (by decide))) rfl
  | _ => exact .of_method (by decide) (fun _ h => absurd h List.not_mem_nil) rfl

theorem denotes_literal {value : Literal} (h : value.isNaN = false) :
    Denotes (method "literal" [.literal value]) (.literal value.canonical) := by
  refine .of_method (by decide) (List.forall_mem_singleton.mpr (.literal value)) ?_
  -- passed to this method, a word is a literal
  have hliteral : Tree.literal? (Expr.literal value).words = some value.canonical := by
    have hread := Literal.ofToken?_token h
    cases value with
    | string text => rw [Expr.words]; rfl
    | _ =>
      rw [Expr.words]
      · exact hread
      · exact fun _ h => Literal.noConfusion h
  exact congrArg (Option.map Tree.literal) hliteral

/-- A method of one validator. What the text of the method is read as is left to `hread`. -/
theorem denotes_unary {name : String} (build : Tree → Tree) (hname : Identifier.isBare name = true)
    (hread : ∀ expr, Tree.ofExpr? (method name [expr]) = (Tree.ofExpr? expr).map build)
    {expr : Expr} {tree : Tree} (h : Denotes expr tree) :
    Denotes (method name [expr]) (build tree) := by
  refine .of_method hname (List.forall_mem_singleton.mpr h.readable) ?_
  rw [List.map_singleton, hread, h.tree]
  rfl

/-- A method of two validators. -/
theorem denotes_binary {name : String} (build : Tree → Tree → Tree)
    (hname : Identifier.isBare name = true)
    (hread : ∀ first second, Tree.ofExpr? (method name [first, second]) =
      do return build (← Tree.ofExpr? first) (← Tree.ofExpr? second))
    {first second : Expr} {tree tree' : Tree} (h : Denotes first tree) (h' : Denotes second tree') :
    Denotes (method name [first, second]) (build tree tree') := by
  refine .of_method hname
    (List.forall_mem_cons.mpr ⟨h.readable, List.forall_mem_singleton.mpr h'.readable⟩) ?_
  rw [List.map_cons, List.map_singleton, hread, h.tree, h'.tree]
  rfl

theorem denotes_reference {name : String} (h : Identifier.isTypeName name = true) :
    Denotes (.identifier name) (.reference name) where
  readable := .identifier (Identifier.isBare_of_isTypeName h)
  literal := fun _ h => Expr.noConfusion h
  receiver := by
    rw [Expr.words]
    rintro heq
    cases heq
    exact absurd h (by decide)
  tree := by
    rw [Expr.words]
    rfl

theorem denotes_object {shape : List (String × Expr)} {trees : List (String × Tree)}
    (h : List.Forall₂ (fun property tree => property.1 = tree.1 ∧ Denotes property.2 tree.2)
      shape trees) :
    Denotes (method "object" [.object shape]) (.object trees) := by
  have hreadable : ∀ property ∈ shape, property.2.Readable := by
    intro property hproperty
    obtain ⟨tree, -, -, hdenotes⟩ := exists_of_mem_forall₂ h hproperty
    exact hdenotes.readable
  refine .of_method (by decide) (List.forall_mem_singleton.mpr (.object hreadable)) ?_
  rw [List.map_singleton, Expr.words]
  exact congrArg (Option.map Tree.object) (ofShape?_words h)

/-- A list of validators, passed to a method. -/
theorem denotes_list {exprs : List Expr} {trees : List Tree}
    (h : List.Forall₂ Denotes exprs trees) :
    (Expr.array exprs).Readable ∧ (Expr.array exprs).words = .array (exprs.map Expr.words) ∧
      Tree.ofAll? (exprs.map Expr.words) = some trees :=
  ⟨.array (readable_of_denotes h), by rw [Expr.words], ofAll?_words h⟩

/-- A method of a list of validators. -/
theorem denotes_listed {name : String} (build : List Tree → Tree)
    (hname : Identifier.isBare name = true)
    (hread : ∀ exprs, Tree.ofExpr? (method name [.array exprs]) = (Tree.ofAll? exprs).map build)
    {exprs : List Expr} {trees : List Tree} (h : List.Forall₂ Denotes exprs trees) :
    Denotes (method name [.array exprs]) (build trees) := by
  obtain ⟨hreadable, hwords, htrees⟩ := denotes_list h
  refine .of_method hname (List.forall_mem_singleton.mpr hreadable) ?_
  rw [List.map_singleton, hwords, hread, htrees]
  rfl

theorem denotes_tuple {exprs : List Expr} {trees : List Tree}
    (h : List.Forall₂ Denotes exprs trees) :
    Denotes (method "tuple" [.array exprs]) (.tuple trees) :=
  denotes_listed .tuple (by decide) (fun _ => rfl) h

/-- A function without a result, with no parameters or with some. -/
theorem denotes_action {exprs : List Expr} {trees : List Tree}
    (h : List.Forall₂ Denotes exprs trees) :
    Denotes (function exprs none) (.function trees none) := by
  unfold function
  cases h with
  | nil => exact .of_method (by decide) (fun _ h => absurd h List.not_mem_nil) rfl
  | cons hfirst hmore =>
    -- the parameters are written as a tuple, and read as its elements
    have hparameters := denotes_tuple (.cons hfirst hmore)
    refine .of_method (by decide) (List.forall_mem_singleton.mpr hparameters.readable) ?_
    obtain ⟨-, hwords, htrees⟩ := denotes_list (.cons hfirst hmore)
    rw [List.map_singleton, words_method, List.map_singleton, hwords, method, method, Tree.ofExpr?,
      htrees]
    rfl

theorem denotes_function {exprs : List Expr} {trees : List Tree}
    (h : List.Forall₂ Denotes exprs trees) {returns : Expr} {tree : Tree}
    (hreturns : Denotes returns tree) :
    Denotes (function exprs (some returns)) (.function trees (some tree)) := by
  have hparameters := denotes_tuple h
  refine .of_method (by decide) (List.forall_mem_cons.mpr
    ⟨hparameters.readable, List.forall_mem_singleton.mpr hreturns.readable⟩) ?_
  obtain ⟨-, hwords, htrees⟩ := denotes_list h
  rw [List.map_cons, List.map_singleton, words_method, List.map_singleton, hwords, method, method,
    Tree.ofExpr?, htrees, hreturns.tree]
  rfl

/-! ## Validators of nodes -/

end TypeGraph.Validator.Zod

namespace TypeGraph

/-- No literal in the node is the number that equals nothing. -/
def Node.WithoutNaN (node : Node) : Prop :=
  ∀ value, Occurs (.literal value) node → value.isNaN = false

theorem Node.WithoutNaN.child {node child : Node} (h : node.WithoutNaN)
    (hc : child ∈ node.children) :
    child.WithoutNaN := fun value ho => h value (.child hc ho)

theorem Node.withoutNaN_literal {value : Literal} (h : value.isNaN = false) :
    (literal value).WithoutNaN := by
  intro other ho
  rcases occurs_iff.mp ho with heq | ⟨child, hc, -⟩
  · cases heq
    exact h
  · cases hc

theorem Node.WithoutNaN.of_children {node : Node} (hkind : node.kind ≠ .literal)
    (h : ∀ child ∈ node.children, child.WithoutNaN) : node.WithoutNaN := by
  intro value ho
  rcases occurs_iff.mp ho with rfl | ⟨child, hc, ho⟩
  · exact absurd rfl hkind
  · exact h child hc value ho

theorem Node.WithoutNaN.of_presence {node content : Node} {smaller : sizeOf content < sizeOf node}
    (h : node.WithoutNaN) (hpresence : node.presence = .optional content smaller) :
    content.WithoutNaN := by
  rcases presence_cases node with ⟨-, hp⟩ | ⟨-, -, hp⟩ | ⟨kept, smaller', -, hkept, hp⟩
  · rw [hp] at hpresence
    cases hpresence
  · rw [hp] at hpresence
    cases hpresence
  · rw [hp] at hpresence
    cases hpresence
    exact fun value ho => h value (occurs_of_withoutUndefined (by simp [kind]) hkept ho)

namespace Validator.Zod

section

variable {definitions : DefinitionMap}

/-- The expressions of nodes say what the nodes are, where no literal is NaN. -/
abbrev DenotesNode (expr : Expr) (node : Node) : Prop :=
  node.WithoutNaN → Denotes expr (Tree.ofNode node)

theorem forall₂_denotes {exprs : List Expr} {nodes : List Node}
    (h : List.Forall₂ DenotesNode exprs nodes) (hnan : ∀ node ∈ nodes, node.WithoutNaN) :
    List.Forall₂ Denotes exprs (nodes.map Tree.ofNode) := by
  rw [List.forall₂_map_right_iff]
  exact forall₂_imp_of_mem h fun _ node hm hdenotes => hdenotes (hnan node hm)

/-- A level says what its node is if its parts do. -/
theorem Level.denotes
    (hnames : ∀ identifier ∈ definitions.keys, Identifier.isTypeName identifier = true)
    {expr : Expr} {node : Node} (h : Level definitions DenotesNode expr node) :
    DenotesNode expr node := by
  intro hnan
  have hchildren (child : Node) (hc : child ∈ node.children) : child.WithoutNaN := hnan.child hc
  cases h with
  | primitive kind =>
    rw [Tree.ofNode]
    exact denotes_primitive kind
  | literal value =>
    rw [Tree.ofNode]
    exact denotes_literal (hnan value .self)
  | array inside =>
    rw [Tree.ofNode]
    exact denotes_unary .array (by decide) (fun _ => rfl) (inside (hchildren _ List.mem_cons_self))
  | set inside =>
    rw [Tree.ofNode]
    exact denotes_unary .set (by decide) (fun _ => rfl) (inside (hchildren _ List.mem_cons_self))
  | record keys values =>
    rw [Tree.ofNode]
    exact denotes_binary .record (by decide) (fun _ _ => rfl)
      (keys (hchildren _ List.mem_cons_self)) (values (hchildren _ (by simp [Node.children])))
  | map keys values =>
    rw [Tree.ofNode]
    exact denotes_binary .map (by decide) (fun _ _ => rfl)
      (keys (hchildren _ List.mem_cons_self)) (values (hchildren _ (by simp [Node.children])))
  | object slots =>
    rw [Tree.ofNode]
    refine denotes_object (List.forall₂_map_right_iff.mpr ?_)
    refine forall₂_imp_of_mem slots fun property entry hm hslot => ⟨hslot.1, hslot.2 ?_⟩
    exact hchildren entry.2 (List.mem_map_of_mem hm)
  | single inside =>
    rw [Tree.ofNode]
    exact inside (hchildren _ List.mem_cons_self)
  | optional left part =>
    rw [Tree.ofNode_of_optional left]
    exact (part (hnan.of_presence left)).optional
  | union unmarked members =>
    rw [Tree.ofNode_of_not_optional unmarked]
    exact denotes_listed .union (by decide) (fun _ => rfl) (forall₂_denotes members hchildren)
  | tuple elements =>
    rw [Tree.ofNode]
    exact denotes_tuple (forall₂_denotes elements hchildren)
  | intersection head members =>
    rw [Tree.ofNode]
    exact (head (hchildren _ List.mem_cons_self)).conjunction
      (forall₂_denotes members fun node hm => hchildren node (List.mem_cons_of_mem _ hm))
  | procedure arguments =>
    rw [Tree.ofNode]
    exact denotes_action
      (forall₂_denotes arguments fun node hm => hchildren node (List.mem_append_left _ hm))
  | function arguments result =>
    rw [Tree.ofNode]
    refine denotes_function
      (forall₂_denotes arguments fun node hm => hchildren node (List.mem_append_left _ hm)) ?_
    exact result (hchildren _ (List.mem_append_right _ List.mem_cons_self))
  | @reference identifier _ defined =>
    rw [Tree.ofNode]
    exact denotes_reference (hnames identifier (OrderedMap.contains_iff.mp defined))

/-- The validator of a node says what the node is. -/
theorem denotes_ofNode
    (hnames : ∀ identifier ∈ definitions.keys, Identifier.isTypeName identifier = true)
    (node : Node) (hnan : node.WithoutNaN) {expr : Expr} (h : ofNode definitions node = .ok expr) :
    Denotes expr (Tree.ofNode node) :=
  ofNode_induction (fun _ _ hlevel => hlevel.denotes hnames) h hnan

/-- Where identifiers are type names, nodes with the same validator text have the same tree: the
text does not confuse two types. -/
theorem tree_eq_of_emit_eq
    (hnames : ∀ identifier ∈ definitions.keys, Identifier.isTypeName identifier = true)
    {a b : Node} (ha : a.WithoutNaN) (hb : b.WithoutNaN) {text : String}
    (htext : emit .zod definitions a = .ok text) (htext' : emit .zod definitions b = .ok text) :
    Tree.ofNode a = Tree.ofNode b := by
  obtain ⟨first, hfirst, htext⟩ := exists_of_bind_eq_ok htext
  obtain ⟨second, hsecond, htext'⟩ := exists_of_bind_eq_ok htext'
  have hdenotes := denotes_ofNode hnames a ha hfirst
  have hdenotes' := denotes_ofNode hnames b hb hsecond
  cases htext
  -- in words both are one expression, and so they say the same
  have hwords :=
    Expr.words_eq_of_text_eq hdenotes.readable hdenotes'.readable (Except.ok.inj htext').symm
  have htree := hdenotes.tree
  rw [hwords, hdenotes'.tree] at htree
  exact (Option.some.inj htree).symm

end

/-- Points, under their name. -/
def points : DefinitionMap := .ofList [("Point", ⟨.object [], none⟩)]

/-- A place that may be missing, at height zero. -/
def place : Node :=
  .object [("at", .union (.reference "Point" (some "Point")) [.undefined]),
    ("height", .literal (.number .zero))]

/-- The same, put differently: unions of one member, `undefined` in front, no display name, and the
height with a sign. -/
def placeAgain : Node :=
  .object [("at", .union .undefined [.union (.reference "Point" none) []]),
    ("height", .union (.literal (.number { Binary64.zero with negative := true })) [])]

theorem withoutNaN_place : place.WithoutNaN := by
  have hundefined : Node.undefined.WithoutNaN := .of_children (by decide) (by simp [Node.children])
  have hpoint : (Node.reference "Point" (some "Point")).WithoutNaN :=
    .of_children (by simp [Node.kind]) (by simp [Node.children])
  have hat : (Node.union (.reference "Point" (some "Point")) [.undefined]).WithoutNaN :=
    .of_children (by simp [Node.kind]) (by simp [Node.children, hundefined, hpoint])
  have hheight : (Node.literal (.number .zero)).WithoutNaN := Node.withoutNaN_literal rfl
  exact .of_children (by simp [place, Node.kind]) (by simp [place, Node.children, hat, hheight])

theorem withoutNaN_placeAgain : placeAgain.WithoutNaN := by
  have hundefined : Node.undefined.WithoutNaN := .of_children (by decide) (by simp [Node.children])
  have hpoint : (Node.reference "Point" none).WithoutNaN :=
    .of_children (by simp [Node.kind]) (by simp [Node.children])
  have hsingle : (Node.union (.reference "Point" none) []).WithoutNaN :=
    .of_children (by simp [Node.kind]) (by simp [Node.children, hpoint])
  have hat : (Node.union .undefined [.union (.reference "Point" none) []]).WithoutNaN :=
    .of_children (by simp [Node.kind]) (by simp [Node.children, hundefined, hsingle])
  have hzero : (Node.literal (.number { Binary64.zero with negative := true })).WithoutNaN :=
    Node.withoutNaN_literal rfl
  have hheight :
      (Node.union (.literal (.number { Binary64.zero with negative := true })) []).WithoutNaN :=
    .of_children (by simp [Node.kind]) (by simp [Node.children, hzero])
  exact .of_children (by simp [placeAgain, Node.kind])
    (by simp [placeAgain, Node.children, hat, hheight])

theorem tree_place_eq :
    (∀ identifier ∈ points.keys, Identifier.isTypeName identifier = true) ∧
      emit .zod points place =
        .ok "z.object(\x7b at: Point.optional(), height: z.literal(0) \x7d)" ∧
      emit .zod points placeAgain =
        .ok "z.object(\x7b at: Point.optional(), height: z.literal(0) \x7d)" ∧
      Tree.ofNode place = Tree.ofNode placeAgain := by
  have hnames : ∀ identifier ∈ points.keys, Identifier.isTypeName identifier = true := by decide
  have hplace : emit .zod points place =
      .ok "z.object(\x7b at: Point.optional(), height: z.literal(0) \x7d)" := by
    decide +kernel
  have hagain : emit .zod points placeAgain =
      .ok "z.object(\x7b at: Point.optional(), height: z.literal(0) \x7d)" := by decide +kernel
  exact ⟨hnames, hplace, hagain,
    tree_eq_of_emit_eq hnames withoutNaN_place withoutNaN_placeAgain hplace hagain⟩

end Validator.Zod

end TypeGraph
