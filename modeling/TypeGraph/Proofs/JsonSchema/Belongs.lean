import TypeGraph.Proofs.JsonSchema.Values
import TypeGraph.Proofs.SchemaGraph.Wired

/-!
# Membership

Which JSON values belong to a node. `DefinitionMap.Belongs` is the least relation that the rules of
`DefinitionMap.Admits` allow, so a value belongs to a recursive node only if that can be seen in
finitely many steps.

Main results:

* `belongs_withoutUndefined`: JSON has no `undefined`, so nothing is lost with what admits it.
* `belongs_normalize`: a value belongs to a node exactly if it belongs to the normal form, among the
  definitions in normal form.
-/

namespace TypeGraph

/-! ## Rules -/

/-- Whether a value is of a type without parts. What JSON does not write has no values. -/
def Primitive.Admits (value : Json) : Primitive → Prop
  | string => ∃ text, value = .string text
  | number => ∃ numeral, value = .number numeral
  | boolean => ∃ truth, value = .bool truth
  | null => value = .null
  | any | unknown => True
  | undefined | void | never | bigint | date | regexp => False

/-- Whether a value is the one of a literal type. -/
def Literal.Admits (value : Json) : Literal → Prop
  | string text => value = .string text
  | number x => ∃ numeral, value = .number numeral ∧ numeral.nearest.beq x = true
  | boolean truth => value = .bool truth
  | bigint _ => False
  | null => value = .null

namespace DefinitionMap

/-- A key that admits every name: a string or a number, behind references and unions of one
member. -/
inductive AdmitsAllNames (definitions : DefinitionMap) : Node → Prop
  | string : AdmitsAllNames definitions (.primitive .string)
  | number : AdmitsAllNames definitions (.primitive .number)
  | single {only : Node} (member : AdmitsAllNames definitions only) :
      AdmitsAllNames definitions (.union only [])
  | reference {identifier : String} {displayName : Option String} {body : Node}
      (found : definitions.node? identifier = some body)
      (target : AdmitsAllNames definitions body) :
      AdmitsAllNames definitions (.reference identifier displayName)

/-- The rules of membership, over what is known to belong to the parts of a node. -/
def Admits (definitions : DefinitionMap) (belongs : Json → Node → Prop) (value : Json) : Node → Prop
  | .primitive primitive => primitive.Admits value
  | .literal literal => literal.Admits value
  | .array element => ∃ elements, value = .array elements ∧ ∀ part ∈ elements, belongs part element
  | .set element =>
    ∃ elements, value = .array elements ∧ (∀ part ∈ elements, belongs part element) ∧
      elements.Pairwise fun part other => part.same other = false
  | .record key content => ∃ entries, value = .object entries ∧
      (definitions.AdmitsAllNames key ∨ ∀ entry ∈ entries, belongs (.string entry.1) key) ∧
      ∀ entry ∈ entries, belongs entry.2 content
  | .object shape => ∃ entries, value = .object entries ∧
      (∀ property ∈ Entries.ofList shape, property.2.isOptional = false →
        property.1 ∈ entries.map Prod.fst) ∧
      ∀ entry ∈ entries, ∀ node, Entries.get? entry.1 (Entries.ofList shape) = some node →
        belongs entry.2 node
  | .union first rest => ∃ member ∈ first :: rest, belongs value member
  | .tuple first rest => ∃ elements, value = .array elements ∧
      elements.length ≤ (first :: rest).length ∧
      (∀ slot ∈ elements.zip (first :: rest), belongs slot.1 slot.2) ∧
      ∀ node ∈ (first :: rest).drop elements.length, node.isOptional = true
  | .intersection first rest => ∀ member ∈ first :: rest, belongs value member
  | .reference identifier _ => ∃ body, definitions.node? identifier = some body ∧ belongs value body
  | .map _ _ | .function _ _ => False

/-- What more is known to belong, the more is admitted. -/
theorem Admits.mono {definitions : DefinitionMap} {belongs belongs' : Json → Node → Prop}
    (hle : ∀ value node, belongs value node → belongs' value node) {value : Json} {node : Node}
    (h : definitions.Admits belongs value node) : definitions.Admits belongs' value node := by
  cases node with
  | primitive | literal => exact h
  | array element =>
    obtain ⟨elements, hvalue, hparts⟩ := h
    exact ⟨elements, hvalue, fun part hp => hle _ _ (hparts part hp)⟩
  | set element =>
    obtain ⟨elements, hvalue, hparts, hdistinct⟩ := h
    exact ⟨elements, hvalue, fun part hp => hle _ _ (hparts part hp), hdistinct⟩
  | record key content =>
    obtain ⟨entries, hvalue, hnames, hcontents⟩ := h
    refine ⟨entries, hvalue, hnames.imp_right ?_, fun entry he => hle _ _ (hcontents entry he)⟩
    exact fun hnames entry he => hle _ _ (hnames entry he)
  | object shape =>
    obtain ⟨entries, hvalue, hrequired, hcontents⟩ := h
    exact ⟨entries, hvalue, hrequired, fun entry he node hn => hle _ _ (hcontents entry he node hn)⟩
  | union first rest =>
    obtain ⟨member, hm, hmember⟩ := h
    exact ⟨member, hm, hle _ _ hmember⟩
  | tuple first rest =>
    obtain ⟨elements, hvalue, hlength, hslots, hrest⟩ := h
    exact ⟨elements, hvalue, hlength, fun slot hs => hle _ _ (hslots slot hs), hrest⟩
  | intersection first rest => exact fun member hm => hle _ _ (h member hm)
  | reference identifier displayName =>
    obtain ⟨body, hbody, htarget⟩ := h
    exact ⟨body, hbody, hle _ _ htarget⟩
  | map | function => exact h

def membership (definitions : DefinitionMap) : (Json → Node → Prop) →o (Json → Node → Prop) where
  toFun belongs := definitions.Admits belongs
  monotone' _ _ hle _ _ h := h.mono hle

/-- Whether a value belongs to a node, by the rules of membership. -/
def Belongs (definitions : DefinitionMap) : Json → Node → Prop := definitions.membership.lfp

variable {definitions : DefinitionMap} {value : Json} {node : Node}

theorem belongs_iff : definitions.Belongs value node ↔
    definitions.Admits definitions.Belongs value node := Least.lfp_iff

theorem Belongs.induction {motive : Json → Node → Prop}
    (step : ∀ value node, definitions.Admits
      (fun value node => definitions.Belongs value node ∧ motive value node) value node →
        motive value node)
    (h : definitions.Belongs value node) : motive value node := Least.induction step h

/-! ## Without `undefined` -/

theorem not_belongs_undefined : ¬ definitions.Belongs value .undefined := belongs_iff.mp

theorem belongs_union {first : Node} {rest : List Node} :
    definitions.Belongs value (.union first rest) ↔
      ∃ member ∈ first :: rest, definitions.Belongs value member := belongs_iff

/-- A value belongs to what is left of a node, if it belongs to the node. -/
theorem belongs_withoutUndefined (node : Node) :
    (∃ kept, node.withoutUndefined = some kept ∧ definitions.Belongs value kept) ↔
      definitions.Belongs value node :=
  Node.exists_withoutUndefined_iff (fun _ _ => belongs_union) not_belongs_undefined node

/-! ## Normal nodes -/

/-- A key admits every name in its normal form, if it does so as it stands. -/
theorem admitsAllNames_normalize (key : Node) :
    definitions.AdmitsAllNames key.normalize ↔ definitions.AdmitsAllNames key := by
  induction key using Node.inductionOnChildren with
  | step key ih =>
    cases key with
    | union first rest =>
      cases rest with
      | nil =>
        rw [Node.normalize, ih first List.mem_cons_self]
        constructor
        · exact .single
        · rintro (_ | _ | hfirst)
          exact hfirst
      | cons second rest =>
        -- a union of several members stays one or admits nothing
        have hnormal : ¬ definitions.AdmitsAllNames
            (Node.union first (second :: rest)).normalize := by
          rw [Node.normalize_union]
          intro h
          split at h
          · split at h <;> cases h
          · cases h
        constructor
        · exact fun h => absurd h hnormal
        · intro h
          cases h
    | primitive | literal | reference => rw [Node.normalize]
    | _ =>
      rw [Node.normalize]
      constructor
      · intro h
        cases h
      · intro h
        cases h

/-- A value belongs to the normal form of a node, if it belongs to the node. -/
theorem belongs_normalize_node (node : Node) (value : Json) :
    definitions.Belongs value node.normalize ↔ definitions.Belongs value node := by
  have hchild : ∀ child ∈ node.children, ∀ value,
      definitions.Belongs value child.normalize ↔ definitions.Belongs value child := by
    intro child hc value
    have hsmaller := Node.sizeOf_lt_of_mem_children hc
    exact belongs_normalize_node child value
  cases node with
  | primitive | literal | reference => rw [Node.normalize]
  | array element =>
    have helement := hchild element List.mem_cons_self
    rw [Node.normalize, belongs_iff, belongs_iff]
    simp only [Admits, helement]
  | set element =>
    have helement := hchild element List.mem_cons_self
    rw [Node.normalize, belongs_iff, belongs_iff]
    simp only [Admits, helement]
  | record key content =>
    have hkey := hchild key List.mem_cons_self
    have hcontent := hchild content (List.mem_cons_of_mem _ List.mem_cons_self)
    rw [Node.normalize, belongs_iff, belongs_iff]
    simp only [Admits, hkey, hcontent, admitsAllNames_normalize]
  | map | function =>
    rw [Node.normalize, belongs_iff, belongs_iff]
    exact Iff.rfl
  | object shape =>
    have hcontent : ∀ name node, Entries.get? name (Entries.ofList shape) = some node → ∀ value,
        definitions.Belongs value node.normalize ↔ definitions.Belongs value node := by
      intro name node hn
      exact hchild node (List.mem_map_of_mem (Entries.mem_ofList (Entries.mem_of_get? hn)))
    -- both are read with the last property of a name
    have hentries := Entries.ofList_eq_self (Entries.nodup_ofList shape)
    rw [Node.normalize, Node.normalizeShape_eq, Node.objectOf, belongs_iff, belongs_iff]
    simp only [Admits, hentries, Entries.ofList_map, Entries.get?_map, List.forall_mem_map,
      Node.isOptional_normalize, Option.map_eq_some_iff]
    refine exists_congr fun entries => and_congr_right fun _ => and_congr_right fun _ => ?_
    refine forall₂_congr fun entry _ => ?_
    constructor
    · intro h node hn
      exact (hcontent _ node hn _).mp (h _ ⟨node, hn, rfl⟩)
    · rintro h _ ⟨node, hn, rfl⟩
      exact (hcontent _ node hn _).mpr (h node hn)
  | union first rest =>
    cases rest with
    | nil =>
      rw [Node.normalize, hchild first List.mem_cons_self, belongs_union]
      simp
    | cons second rest =>
      rw [Node.normalize_union]
      split
      · -- nothing belongs to `undefined`, so what is left without it decides
        rename_i hoptional
        rw [← belongs_withoutUndefined (.union first (second :: rest))]
        cases hcontent : (Node.union first (second :: rest)).withoutUndefined with
        | none => simpa using not_belongs_undefined
        | some content =>
          have hsmaller := Node.sizeOf_lt_of_withoutUndefined hoptional hcontent
          have ih := belongs_normalize_node content value
          simpa [belongs_union, not_belongs_undefined] using ih
      · simp only [belongs_union, ← List.map_cons, List.mem_map, exists_exists_and_eq_and]
        exact exists_congr fun member => and_congr_right fun hm => hchild member hm value
  | tuple first rest =>
    have hslots : ∀ elements : List Json, ∀ slot ∈ elements.zip (first :: rest),
        definitions.Belongs slot.1 slot.2.normalize ↔ definitions.Belongs slot.1 slot.2 :=
      fun elements slot hs => hchild slot.2 (List.of_mem_zip hs).2 slot.1
    rw [Node.normalize, Node.normalizeAll_eq, belongs_iff, belongs_iff]
    simp only [Admits, ← List.map_cons, List.length_map, List.zip_map_right, ← List.map_drop,
      List.forall_mem_map, Node.isOptional_normalize]
    refine exists_congr fun elements => and_congr_right fun _ => and_congr_right fun _ => ?_
    exact and_congr_left' (forall₂_congr (hslots elements))
  | intersection first rest =>
    rw [Node.normalize, Node.normalizeAll_eq, belongs_iff, belongs_iff]
    simp only [Admits, ← List.map_cons, List.forall_mem_map]
    exact forall₂_congr fun member hm => hchild member hm value
  termination_by sizeOf node
  decreasing_by
    · exact hsmaller
    · subst_vars
      exact hsmaller

/-! ## Definitions in normal form -/

/-- Membership goes on among other definitions that have the same keys for all names and, for all
that is known to belong to a body, a body to which that belongs. -/
theorem Admits.of_definitions {definitions' : DefinitionMap} {belongs : Json → Node → Prop}
    (hnames : ∀ key, definitions.AdmitsAllNames key → definitions'.AdmitsAllNames key)
    (hbodies : ∀ identifier body value, definitions.node? identifier = some body →
      belongs value body → ∃ body', definitions'.node? identifier = some body' ∧
      belongs value body')
    (h : definitions.Admits belongs value node) : definitions'.Admits belongs value node := by
  cases node with
  | record key content =>
    obtain ⟨entries, hvalue, hkeys, hcontents⟩ := h
    exact ⟨entries, hvalue, hkeys.imp_left (hnames key), hcontents⟩
  | reference identifier displayName =>
    obtain ⟨body, hbody, htarget⟩ := h
    exact hbodies identifier body value hbody htarget
  | _ => exact h

theorem node?_normalize_eq_some_iff {identifier : String} {body : Node} :
    definitions.normalize.node? identifier = some body ↔
      ∃ body', definitions.node? identifier = some body' ∧ body'.normalize = body := by
  rw [node?_normalize, Option.map_eq_some_iff]

theorem admitsAllNames_definitions {key : Node} :
    definitions.normalize.AdmitsAllNames key ↔ definitions.AdmitsAllNames key := by
  -- induction on the rules, of which only that for references looks at a definition
  constructor
  · intro h
    induction h with
    | string => exact .string
    | number => exact .number
    | single _ ih => exact .single ih
    | reference hfound _ ih =>
      obtain ⟨body, hbody, rfl⟩ := node?_normalize_eq_some_iff.mp hfound
      exact .reference hbody ((admitsAllNames_normalize body).mp ih)
  · intro h
    induction h with
    | string => exact .string
    | number => exact .number
    | single _ ih => exact .single ih
    | @reference _ _ body hfound _ ih =>
      have hnormal := (admitsAllNames_normalize body).mpr ih
      exact .reference (node?_normalize_eq_some_iff.mpr ⟨body, hfound, rfl⟩) hnormal

theorem belongs_definitions :
    definitions.normalize.Belongs value node ↔ definitions.Belongs value node := by
  constructor
  · refine Belongs.induction fun value node h => belongs_iff.mpr ?_
    refine (h.mono fun _ _ hpremise => hpremise.2).of_definitions
      (fun _ => admitsAllNames_definitions.mp) ?_
    intro identifier normal value hnormal hvalue
    obtain ⟨body, hbody, rfl⟩ := node?_normalize_eq_some_iff.mp hnormal
    exact ⟨body, hbody, (belongs_normalize_node body value).mp hvalue⟩
  · refine Belongs.induction fun value node h => belongs_iff.mpr ?_
    refine (h.mono fun _ _ hpremise => hpremise.2).of_definitions
      (fun _ => admitsAllNames_definitions.mpr) ?_
    intro identifier body value hbody hvalue
    exact ⟨_, node?_normalize_eq_some_iff.mpr ⟨body, hbody, rfl⟩,
      (belongs_normalize_node body value).mpr hvalue⟩

/-- Normalizing a node and the definitions beside it changes nothing about what belongs to the
node. -/
theorem belongs_normalize :
    definitions.normalize.Belongs value node.normalize ↔ definitions.Belongs value node :=
  belongs_definitions.trans (belongs_normalize_node node value)

end DefinitionMap

end TypeGraph
