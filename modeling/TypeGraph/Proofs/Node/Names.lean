import TypeGraph.Proofs.Node.Normal
import TypeGraph.Proofs.Text.Names
import TypeGraph.Proofs.Text.TypeName
import TypeGraph.Registry

/-!
# Names in nodes

What of a node is written with names: its references and its literals. Taking `undefined` out of a
node leaves these as they are, so the names of a node are also those of its parts, the way emitters
go through them. A list of names is looked at `among` the identifiers of definitions, and for these
the names of a node are its references, unless a number that is not finite is spelled like one of
them.

Main results:

* `Node.names_of_presence`: what fills an optional place has the names of the node in the place.
* `Node.among_names_iff`: which definitions the names of a node are about.
-/

namespace TypeGraph

open Source

namespace Node

/-- The identifiers of the references in a node and the words of its literals, from left to
right. -/
def names (node : Node) : List String :=
  match node with
  | literal value => value.words
  | reference identifier _ => [identifier]
  | node => node.children.attach.flatMap fun child => names child.1
  termination_by sizeOf node
  decreasing_by exact sizeOf_lt_of_mem_children child.2

/-- Other nodes have the names of their children. -/
theorem names_eq {node : Node} (hkind : node.kind ≠ .literal ∧ node.kind ≠ .reference) :
    node.names = node.children.flatMap names := by
  have hattach (children : List Node) :
      children.attach.flatMap (fun child => names child.1) = children.flatMap names := by
    rw [List.flatMap_subtype (g := names) fun _ _ => rfl, List.unattach_attach]
  cases node with
  | literal => exact absurd rfl hkind.1
  | reference => exact absurd rfl hkind.2
  | _ => rw [names, hattach] <;> simp

/-! ## What is left of optional nodes -/

/-- What is left of a node has the names that the node has. -/
theorem flatMap_names_withoutUndefined (node : Node) :
    node.withoutUndefined.toList.flatMap names = node.names := by
  have hunion (first : Node) (rest : List Node) :
      (union first rest).names = (first :: rest).flatMap names :=
    names_eq (by simp [kind])
  have hundefined : undefined.names = [] := names_eq (by simp [kind])
  exact flatMap_withoutUndefined hunion hundefined node

/-- What fills an optional place has the names of the node in the place. -/
theorem names_of_presence {node content : Node} {smaller : sizeOf content < sizeOf node}
    (h : node.presence = .optional content smaller) : content.names = node.names := by
  rcases node.presence_cases with ⟨-, hp⟩ | ⟨-, -, hp⟩ | ⟨kept, _, -, hkept, hp⟩
  · rw [hp] at h
    cases h
  · rw [hp] at h
    cases h
  · rw [hp] at h
    cases h
    rw [← flatMap_names_withoutUndefined node, hkept]
    simp

/-- Nothing but `undefined` has no names. -/
theorem names_of_vacant {node : Node} (h : node.presence = .vacant) : node.names = [] := by
  rcases node.presence_cases with ⟨-, hp⟩ | ⟨-, hnone, -⟩ | ⟨kept, _, -, -, hp⟩
  · rw [hp] at h
    cases h
  · rw [← flatMap_names_withoutUndefined node, hnone]
    rfl
  · rw [hp] at h
    cases h

end Node

/-! ## Identifiers among names -/

namespace DefinitionMap

/-- Which of the names are identifiers of definitions. -/
def among (definitions : DefinitionMap) (names : List String) : List String :=
  names.filter definitions.contains

variable {definitions : DefinitionMap}

@[simp] theorem among_nil : definitions.among [] = [] := rfl

@[simp] theorem among_append (names more : List String) :
    definitions.among (names ++ more) = definitions.among names ++ definitions.among more :=
  List.filter_append ..

theorem among_cons_of_not {name : String} (h : definitions.contains name = false)
    (names : List String) : definitions.among (name :: names) = definitions.among names := by
  simp [among, h]

theorem among_flatMap_eq {α : Type} (items : List α) (names : α → List String) :
    definitions.among (items.flatMap names) = items.flatMap fun item =>
      definitions.among (names item) :=
  List.filter_flatMap ..

theorem among_flatMap {α β : Type} {items : List α} {items' : List β} {names : α → List String}
    {names' : β → List String}
    (h : List.Forall₂ (fun a b => definitions.among (names a) = definitions.among (names' b))
      items items') :
    definitions.among (items.flatMap names) = definitions.among (items'.flatMap names') := by
  induction h with
  | nil => rfl
  | cons hfirst _ ih =>
    rw [List.flatMap_cons, List.flatMap_cons, among_append, among_append, hfirst, ih]

/-- The identifiers are type names that are not reserved. -/
def Proper (definitions : DefinitionMap) : Prop :=
  ∀ identifier ∈ definitions.keys,
    Identifier.isTypeName identifier = true ∧ identifier ∉ Registry.reservedNames

/-- A name that is no type name, or is reserved, is no identifier. -/
theorem Proper.contains_eq_false (h : definitions.Proper) {name : String}
    (hname : Identifier.isTypeName name = false ∨ name ∈ Registry.reservedNames) :
    definitions.contains name = false := by
  rw [Bool.eq_false_iff, ne_eq, OrderedMap.contains_iff]
  intro hmem
  obtain ⟨htype, hreserved⟩ := h name hmem
  rcases hname with hname | hname
  · rw [htype] at hname
    cases hname
  · exact hreserved hname

end DefinitionMap

namespace Node

variable {definitions : DefinitionMap} {node : Node}

theorem mentions_sublist_names :
    (definitions.among node.mentions).Sublist (definitions.among node.names) := by
  induction node using inductionOnChildren with
  | step node ih =>
    by_cases hliteral : node.kind = .literal
    · cases node with
      | literal value => exact List.nil_sublist _
      | _ => cases hliteral
    · by_cases hreference : node.kind = .reference
      · cases node with
        | reference identifier displayName => simp [names, mentions]
        | _ => cases hreference
      · rw [mentions_eq hreference, names_eq ⟨hliteral, hreference⟩, DefinitionMap.among_flatMap_eq,
          DefinitionMap.among_flatMap_eq]
        exact sublist_flatMap ih

/-- The identifiers among the names of a node are those that it mentions, unless a literal is
written with one. -/
theorem among_names_iff : definitions.among node.names = definitions.among node.mentions ↔
    ∀ value, Occurs (.literal value) node → definitions.among value.words = [] := by
  induction node using inductionOnChildren with
  | step node ih =>
    by_cases hliteral : node.kind = .literal
    · cases node with
      | literal value =>
        -- nothing stands in a literal but the literal itself
        have hself (other : Literal) :
            Occurs (.literal other) (.literal value) ↔ other = value := by
          rw [occurs_iff]
          simp [children]
        simp [names, mentions, hself]
      | _ => cases hliteral
    · have hoccurs (value : Literal) : Occurs (.literal value) node ↔
          ∃ child ∈ node.children, Occurs (.literal value) child := by
        rw [occurs_iff, or_iff_right]
        rintro rfl
        exact hliteral rfl
      by_cases hreference : node.kind = .reference
      · cases node with
        | reference identifier displayName => simp [names, mentions, hoccurs, children]
        | _ => cases hreference
      · rw [mentions_eq hreference, names_eq ⟨hliteral, hreference⟩, DefinitionMap.among_flatMap_eq,
          DefinitionMap.among_flatMap_eq,
          flatMap_eq_iff_of_sublist fun _ _ => mentions_sublist_names]
        simp only [hoccurs]
        constructor
        · rintro hchildren value ⟨child, hc, hvalue⟩
          exact (ih child hc).mp (hchildren child hc) value hvalue
        · exact fun hvalues child hc => (ih child hc).mpr fun value hvalue =>
            hvalues value ⟨child, hc, hvalue⟩

end Node

/-! ## Numbers that are spelled -/

/-- The name that a number is written with if it is not finite. -/
def Binary64.spelling? (x : Binary64) : Option String :=
  if x.isNaN then some "NaN" else if x.isInfinite then some "Infinity" else none

theorem Binary64.spelling?_of_isFinite {x : Binary64} (h : x.isFinite = true) :
    x.spelling? = none := by
  have hinfinite : x.isInfinite = false := by
    rw [isFinite, decide_eq_true_eq] at h
    rw [isInfinite, beq_eq_false_iff_ne]
    exact Nat.ne_of_lt h
  rw [spelling?, isNaN_of_isFinite h, hinfinite]
  rfl

/-- A word without upper-case letters holds no type name. -/
theorem Source.isTypeName_nameIn {word : String} (h : ∀ c ∈ word.toList, c.isUpper = false) :
    Identifier.isTypeName (nameIn word) = false := by
  have hname : ∀ c ∈ (nameIn word).toList, c.isUpper = false := by
    unfold nameIn
    split
    · rename_i rest hword
      rw [String.toList_ofList]
      exact fun c hc => h c (hword ▸ List.mem_cons_of_mem _ hc)
    · exact h
  unfold Identifier.isTypeName
  split
  · rfl
  · rename_i first rest hfirst
    rw [hname first (hfirst ▸ List.mem_cons_self), Bool.false_and]

theorem Source.isUpper_of_isNumeric {c : Char} (h : isNumeric c = true) : c.isUpper = false := by
  rw [Bool.eq_false_iff, ne_eq, Identifier.isUpper_iff]
  simp only [isNumeric, Bool.or_eq_true, beq_iff_eq, Identifier.isDigit_iff] at h
  rintro ⟨hlow, hhigh⟩
  rcases h with (((h | rfl) | rfl) | rfl) | rfl
  · omega
  -- signs and the point come before the letters, the mark of a power is in lower case
  all_goals first
    | exact absurd hlow (by decide)
    | exact absurd hhigh (by decide)

/-- Only numbers that are not finite are written with what may be an identifier. -/
theorem DefinitionMap.Proper.among_words {definitions : DefinitionMap} (h : definitions.Proper)
    (value : Literal) :
    definitions.among value.words = [] ↔
      ∀ x name, value = .number x → x.spelling? = some name →
      definitions.contains name = false := by
  have hplain (word : String) (hword : ∀ c ∈ word.toList, c.isUpper = false) :
      definitions.among (names [.word word]) = [] := by
    simp [among, names, endsKey, h.contains_eq_false (.inl (isTypeName_nameIn hword))]
  cases value with
  | string text => simp [Literal.words, Literal.token, names]
  | boolean b =>
    have hwords : definitions.among (Literal.boolean b).words = [] := by
      cases b with
      | false => exact hplain "false" (by simp)
      | true => exact hplain "true" (by simp)
    simp [hwords]
  | bigint n =>
    have hwords : definitions.among (Literal.bigint n).words = [] := by
      refine hplain _ fun c hc => ?_
      rw [Literal.text, String.toList_append, List.mem_append] at hc
      rcases hc with hc | hc
      · exact isUpper_of_isNumeric ((Integer.numeric_text n).all c hc)
      · obtain rfl := List.mem_singleton.mp hc
        decide
    simp [hwords]
  | null =>
    have hwords : definitions.among Literal.null.words = [] := hplain "null" (by simp)
    simp [hwords]
  | number x =>
    have hword (name : String) (hname : nameIn (Literal.numberText x) = name)
        (hspelling : x.spelling? = some name) : definitions.among (Literal.number x).words = [] ↔
          ∀ y other, Literal.number x = .number y → y.spelling? = some other →
            definitions.contains other = false := by
      have hsingle : definitions.among [name] = [] ↔ definitions.contains name = false := by
        simp [among]
      rw [show (Literal.number x).words = [name] by
        simp [Literal.words, Literal.token, Literal.text, names, endsKey, hname], hsingle]
      constructor
      · intro hfalse y other heq hother
        cases heq
        cases hspelling.symm.trans hother
        exact hfalse
      · exact fun h => h x name rfl hspelling
    cases hnan : x.isNaN with
    | true =>
      refine hword "NaN" ?_ (by simp [Binary64.spelling?, hnan])
      simp [Literal.numberText, hnan, nameIn]
    | false =>
      cases hinfinite : x.isInfinite with
      | true =>
        refine hword "Infinity" ?_ (by simp [Binary64.spelling?, hnan, hinfinite])
        -- both signs leave the same name
        rw [Literal.numberText_of_isInfinite hinfinite]
        cases x.negative <;> decide
      | false =>
        have hfinite := Binary64.isFinite_of_not hnan hinfinite
        have hwords : definitions.among (Literal.number x).words = [] :=
          hplain _ fun c hc => isUpper_of_isNumeric ((Literal.numeric_numberText hfinite).all c hc)
        refine iff_of_true hwords fun y name heq hname => ?_
        cases heq
        cases (Binary64.spelling?_of_isFinite hfinite).symm.trans hname

end TypeGraph
