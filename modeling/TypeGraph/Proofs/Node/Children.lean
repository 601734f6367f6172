import TypeGraph.Proofs.Definition.Inlining
import TypeGraph.Proofs.Lists

/-!
# Reading and rewriting the parts of a node

`Node.children` reads the parts of a node, `Node.mapChildren` and `Node.mapChildrenM` change them,
each by its own cases. `Node.mapChildrenM_bind` says that they agree on which parts there are and in
which order: to change the parts of a node is to change those that are read, one after the other,
and nothing of what the node says itself (`Node.Outline`), whatever changing a part does besides.

What collects references reads the parts, and what inlines definitions rewrites them.
`Node.collect_eq` and `Node.mentions_substitute` say what this comes to: both come to the same
references in the same order.
-/

namespace TypeGraph

namespace Node

/-! ## What a node says without its parts -/

/-- All that a node says itself. -/
structure Outline where
  kind : Kind
  value : Option Literal := none
  /-- The names of the properties, in order. -/
  properties : List String := []
  hasReturn : Bool := false
  identifier : Option String := none
  displayName : Option String := none

def outline : Node → Outline
  | literal value => { kind := .literal, value := value }
  | object shape => { kind := .object, properties := shape.map Prod.fst }
  | function _ returns => { kind := .function, hasReturn := returns.isSome }
  | reference identifier displayName =>
    { kind := .reference, identifier := identifier, displayName := displayName }
  | node => { kind := node.kind }

theorem kind_outline (node : Node) : node.outline.kind = node.kind := by
  cases node <;> rfl

/-- A node is what it says itself and its parts. -/
theorem eq_of_outline {node node' : Node} (houtline : node.outline = node'.outline)
    (hchildren : node.children = node'.children) : node = node' := by
  have hkind : node.kind = node'.kind := by rw [← kind_outline, ← kind_outline, houtline]
  -- the two are of one kind; what is left are the fields of each
  cases node <;> cases node' <;> cases hkind
  case object shape shape' =>
    have hnames : shape.map Prod.fst = shape'.map Prod.fst := congrArg Outline.properties houtline
    have hshape : shape = shape' := by
      rw [← List.zip_unzip shape, ← List.zip_unzip shape', List.unzip_eq_map, List.unzip_eq_map,
        hnames]
      exact congrArg (List.zip _) hchildren
    rw [hshape]
  case function parameters returns parameters' returns' =>
    have hreturn : returns.isSome = returns'.isSome := congrArg Outline.hasReturn houtline
    have hlength : parameters.length = parameters'.length := by
      have hparts := congrArg List.length hchildren
      cases returns <;> cases returns' <;> simp_all [children]
    -- the parameters are those of the children that stand in front of what is returned
    obtain ⟨rfl, hreturns⟩ := List.append_inj hchildren hlength
    cases returns <;> cases returns' <;> simp_all
  all_goals simp_all [outline, children]

/-! ## Rewriting -/

section

variable {m : Type → Type} [Monad m] [LawfulMonad m] {α : Type}

/-- Properties are changed like the list of their types, and keep their names. -/
theorem mapM_properties (f : Node → m Node) (shape : List (String × Node))
    (k : List String → List Node → m α) :
    (do let shape' ← shape.mapM fun property => do return (property.1, ← f property.2)
        k (shape'.map Prod.fst) (shape'.map Prod.snd)) =
      (do let parts ← (shape.map Prod.snd).mapM f
          k (shape.map Prod.fst) parts) := by
  -- induction on the properties; the first one goes to what comes after
  induction shape generalizing k with
  | nil => simp
  | cons property rest ih =>
    simp only [List.mapM_cons, List.map_cons, bind_assoc, pure_bind]
    congr 1
    funext child
    exact ih fun names parts => k (property.1 :: names) (child :: parts)

/-- To change the parts of a node is to change the children that are read from it, from the first to
the last; the node then reads as the same one with these children. -/
theorem mapChildrenM_bind (f : Node → m Node) (node : Node) (k : Outline → List Node → m α) :
    (do let node' ← node.mapChildrenM f
        k node'.outline node'.children) =
      (do let parts ← node.children.mapM f
          k node.outline parts) := by
  -- objects and functions have lists of parts that are put together; the others are what they say
  cases node with
  | object shape =>
    simp only [mapChildrenM, bind_assoc, pure_bind]
    exact mapM_properties f shape fun names parts =>
      k { kind := .object, properties := names } parts
  | function parameters returns =>
    cases returns <;> simp [mapChildrenM, children, outline]
  | _ => simp [mapChildrenM, children, outline, kind]

end

/-- Changes a node by `f`, and writes the node behind those that were changed before. -/
def recorded (f : Node → Node) (node : Node) : StateM (List Node) Node := do
  modify (· ++ [node])
  return f node

theorem run_mapM_recorded (f : Node → Node) (nodes log : List Node) :
    (nodes.mapM (recorded f)).run log = pure (nodes.map f, log ++ nodes) := by
  induction nodes generalizing log with
  | nil => simp
  | cons node rest ih => simp [recorded, ih]

theorem outline_mapChildren (f : Node → Node) (node : Node) :
    (node.mapChildren f).outline = node.outline := by
  cases node with
  | object shape => simp [mapChildren, outline, Function.comp_def]
  | function parameters returns => simp [mapChildren, outline]
  | _ => rfl

/-- Rewriting a node calls the function on each child once, in order. -/
theorem run_mapChildrenM_recorded (f : Node → Node) (node : Node) (log : List Node) :
    (node.mapChildrenM (recorded f)).run log = pure (node.mapChildren f, log ++ node.children) := by
  -- the law for what is read afterwards, run on the log
  have hlaw := congrArg (fun run : StateM (List Node) (Outline × List Node) => run.run log)
    (mapChildrenM_bind (recorded f) node fun outline parts => return (outline, parts))
  simp only [StateT.run_bind, run_mapM_recorded, StateT.run_pure, pure_bind] at hlaw
  -- what comes out has the outline and the children of the rewritten node, so it is that node
  obtain ⟨⟨houtline, hchildren⟩, hlog⟩ := Prod.mk.inj hlaw |>.imp_left Prod.mk.inj
  exact Prod.ext (eq_of_outline (houtline.trans (outline_mapChildren f node).symm)
    (hchildren.trans (children_mapChildren f node).symm)) hlog

/-! ## Collecting references -/

/-- From a node that is no reference, it is collected child by child. -/
theorem collect_of_kind {node : Node} (h : node.kind ≠ .reference) (found : List String) :
    collect found node = node.children.foldl collect found := by
  rw [collect, List.foldl_attach]
  rintro identifier displayName rfl
  exact h rfl

/-- Collecting reads the references from left to right. -/
theorem collect_eraseDups (seen : List String) (node : Node) :
    collect seen.eraseDups node = (seen ++ node.mentions).eraseDups := by
  induction node using inductionOnReferences generalizing seen with
  | reference identifier displayName =>
    rw [collect, mentions, eraseDups_concat]
    simp [List.mem_eraseDups]
  | parts node hk ih =>
    -- inner induction on the children: each of them adds to what those before it have found
    have hall : ∀ children ⊆ node.children, ∀ seen : List String,
        children.foldl collect seen.eraseDups = (seen ++ children.flatMap mentions).eraseDups := by
      intro children hsub
      induction children with
      | nil => simp
      | cons child rest ihRest =>
        intro seen
        obtain ⟨hchild, hrest⟩ := List.cons_subset.mp hsub
        rw [List.foldl_cons, ih child hchild, ihRest hrest, List.flatMap_cons, List.append_assoc]
    rw [collect_of_kind hk, hall _ (List.Subset.refl _), mentions_eq hk]

/-- What is collected, each once and in the order of first mention. -/
theorem collect_eq (node : Node) : collect [] node = node.references :=
  collect_eraseDups [] node

theorem references_mapChildren (f : Node → Node) {node : Node} (h : node.kind ≠ .reference) :
    (node.mapChildren f).references =
      (node.children.flatMap fun child => (f child).references).eraseDups := by
  have hkind : (node.mapChildren f).kind ≠ .reference := by rwa [kind_mapChildren]
  calc (node.mapChildren f).references
      = ((node.children.map f).flatMap mentions).eraseDups := by
        rw [references, mentions_eq hkind, children_mapChildren]
    _ = (node.children.flatMap fun child => (f child).mentions).eraseDups := by
      rw [List.flatMap_map]
    _ = (node.children.flatMap fun child => (f child).references).eraseDups :=
        (eraseDups_flatMap_eraseDups (fun child => (f child).mentions) node.children).symm

/-! ## Inlining -/

/-- A substitution leaves every mention in its place, or puts the mentions of the replacement
there. -/
theorem mentions_substitute (replacement : String → Option Node) (node : Node) :
    (node.substitute replacement).mentions =
      node.mentions.flatMap fun identifier =>
        ((replacement identifier).map mentions).getD [identifier] := by
  induction node using inductionOnReferences with
  | reference identifier displayName =>
    cases hr : replacement identifier <;> simp [substitute, mentions, hr]
  | parts node hk ih =>
    have hkind : (node.mapChildren (substitute replacement)).kind ≠ .reference := by
      rwa [kind_mapChildren]
    rw [substitute_eq _ hk, mentions_eq hkind, children_mapChildren, mentions_eq hk,
      List.flatMap_map, List.flatMap_assoc]
    exact List.flatMap_congr ih

end Node

namespace DefinitionMap

variable (definitions : DefinitionMap)

/-- The references in an inlined node are those that its references become, in their order. -/
theorem mentions_inlineInto (node : Node) :
    (definitions.inlineInto node).mentions =
      node.mentions.flatMap fun identifier =>
        (definitions.inlineInto (.reference identifier none)).mentions := by
  rw [inlineInto, Node.mentions_substitute]
  refine List.flatMap_congr fun identifier _ => ?_
  rw [inlineInto, Node.substitute]
  cases definitions.expand definitions.size identifier <;> rfl

end DefinitionMap

/-! ## Reading and rewriting agree -/

/-- Rewriting the children of a node rewrites those that are read, each once and in order, and
nothing else of the node. So collecting references and inlining come to the same places. -/
theorem Node.mapChildren_exact (f : Node → Node) (node : Node) :
    -- what is read after rewriting
    (node.mapChildren f).children = node.children.map f ∧
    (node.mapChildren f).outline = node.outline ∧
    (∀ other, other.outline = node.outline → other.children = node.children → other = node) ∧
    -- which calls are made, and what they may do besides
    (∀ log, (node.mapChildrenM (recorded f)).run log =
      pure (node.mapChildren f, log ++ node.children)) ∧
    (∀ (σ : Type) (visit : Node → StateM σ Node),
      (do let node' ← node.mapChildrenM visit
          return (node'.outline, node'.children)) =
        (do let parts ← node.children.mapM visit
            return (node.outline, parts))) ∧
    -- which references are collected
    (node.kind ≠ .reference →
      collect [] (node.mapChildren f) =
          (node.children.flatMap fun child => collect [] (f child)).eraseDups ∧
        (collect [] (node.mapChildren f)).Nodup) ∧
    -- where definitions are inlined
    ∀ definitions : DefinitionMap,
      (node.kind ≠ .reference →
        definitions.inlineInto node = node.mapChildren definitions.inlineInto) ∧
      (definitions.inlineInto node).mentions =
        node.mentions.flatMap fun identifier =>
          (definitions.inlineInto (.reference identifier none)).mentions := by
  refine ⟨children_mapChildren f node, outline_mapChildren f node, fun _ => eq_of_outline,
    run_mapChildrenM_recorded f node, ?_, ?_, ?_⟩
  · intro σ visit
    exact mapChildrenM_bind visit node fun outline parts => return (outline, parts)
  · intro hkind
    simp only [collect_eq]
    exact ⟨references_mapChildren f hkind, nodup_eraseDups _⟩
  · intro definitions
    exact ⟨Node.substitute_eq _, definitions.mentions_inlineInto node⟩

/-- A signature that mentions `A` twice: the parameters are read before what is returned. -/
theorem Node.mapChildren_signature :
    collect []
      ((function [reference "B" none, reference "A" none] (reference "A" none)).mapChildren array) =
      ["B", "A"] := by
  have hkind : (function [reference "B" none, reference "A" none] (reference "A" none)).kind ≠
      .reference := by
    simp [kind]
  rw [((mapChildren_exact array _).2.2.2.2.2.1 hkind).1]
  simp [collect_eq, references, mentions, children, List.eraseDups_cons]

end TypeGraph
