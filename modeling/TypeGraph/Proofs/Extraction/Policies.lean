import TypeGraph.Proofs.Definition.Meaning
import TypeGraph.Proofs.Extraction.Reads
import TypeGraph.Proofs.Extraction.Related
import TypeGraph.Proofs.Extraction.Termination

/-!
# Policies agree

A policy decides which named types become definitions. It has no say in what is read, so under any
two policies a type is read with the same errors and with the same meaning.

Main results:

* `forall₂_below_of_reads`: what a type is read as under one policy shows no more than what it is
  read as under another.
* `TypeStore.extract_sameMeaning`: extractions under two policies fail alike or mean the same.
-/

namespace TypeGraph

open List (Forall₂)

/-- Comparing meanings passes from parts to nodes. -/
theorem Congruent.below (steps : Nat) (definitions definitions' : DefinitionMap) :
    Congruent (Below steps definitions definitions') where
  parts := .of_parts
  optional := .optional

namespace Checker

variable {checker : Checker} {policy policy' : Policy}

section

variable {names : TypeKey → Option String}

/-- A type is read as its body, in place, or as a reference to it. -/
theorem Reads.body_or_reference {type : TypeId} {node : Node}
    (h : Reads checker policy names [type] [node]) :
    ReadsBody checker policy names type node ∨
      ∃ identifier label, names (checker.keyOf type) = some identifier ∧
        node = .reference identifier (some label) := by
  -- the lists are generalized for the induction, and each rule is for one type or gives both back
  generalize htypes : [type] = types at h
  generalize hnodes : [node] = nodes at h
  induction h with
  | nil => cases htypes
  | cons _ rest ihfirst _ =>
    cases htypes
    cases hnodes
    exact ihfirst rfl rfl
  | level unnamed inner readable =>
    cases htypes
    cases hnodes
    exact .inl ⟨_, inner, readable, rfl⟩
  | inPlace named inPlace inner readable =>
    cases htypes
    cases hnodes
    exact .inl ⟨_, inner, readable, rfl⟩
  | named named identifier? text =>
    cases htypes
    cases hnodes
    exact .inr ⟨_, _, identifier?, rfl⟩

theorem Reads.exists_singleton {type : TypeId} {nodes : List Node}
    (h : Reads checker policy names [type] nodes) : ∃ node, nodes = [node] :=
  List.length_eq_one_iff.mp h.length_eq.symm

theorem Reads.exists_cons {type : TypeId} {types : List TypeId} {nodes : List Node}
    (h : Reads checker policy names (type :: types) nodes) :
    ∃ node rest, nodes = node :: rest ∧ Reads checker policy names [type] [node] ∧
      Reads checker policy names types rest := by
  obtain ⟨node, rest, rfl⟩ := List.exists_cons_of_length_eq_add_one h.length_eq.symm
  cases h with
  | cons first rest => exact ⟨_, _, rfl, first, rest⟩
  | level unnamed inner readable => exact ⟨_, _, rfl, .level unnamed inner readable, .nil⟩
  | named named identifier? text => exact ⟨_, _, rfl, .named named identifier? text, .nil⟩
  | inPlace named inPlace inner readable =>
    exact ⟨_, _, rfl, .inPlace named inPlace inner readable, .nil⟩

end

/-- A type shows what its body shows, whether it stands in place or not. -/
theorem exists_readsBody_of_reads {registry : Registry TypeKey} (hs : Sound checker policy registry)
    (hpending : registry.pending = []) {type : TypeId} {node : Node}
    (h : Reads checker policy registry.identifier? [type] [node]) :
    ∃ body, ReadsBody checker policy registry.identifier? type body ∧
      ∀ steps (definitions : DefinitionMap) (other : Node),
        Below steps definitions registry.definitions other body →
        Below steps definitions registry.definitions other node := by
  rcases h.body_or_reference with hbody | ⟨identifier, label, hi, rfl⟩
  · exact ⟨node, hbody, fun _ _ _ => id⟩
  · -- what is registered has a definition, and no body is pending any more
    obtain ⟨definition, hd⟩ := OrderedMap.mem_keys_iff.mp (hs.valid.mem_keys hi)
    have hnode : registry.definitions.node? identifier = some definition.node := by
      rw [DefinitionMap.node?, hd, Option.map_some]
    exact ⟨definition.node, hs.readsBody hpending hi hd,
      fun _ _ _ hbelow => hbelow.trans_follow hnode⟩

section

variable {registry registry' : Registry TypeKey}

/-- Types are read as nodes of the same meaning under all policies. -/
theorem forall₂_below_of_reads (hs : Sound checker policy registry)
    (hpending : registry.pending = []) (hs' : Sound checker policy' registry')
    (hpending' : registry'.pending = []) (steps : Nat) {types : List TypeId}
    {nodes nodes' : List Node} (h : Reads checker policy registry.identifier? types nodes)
    (h' : Reads checker policy' registry'.identifier? types nodes') :
    Forall₂ (Below steps registry.definitions registry'.definitions) nodes nodes' := by
  -- outer induction on the references to follow, inner one on how the types are read
  induction steps using Nat.strong_induction_on generalizing types nodes nodes' with
  | _ steps ihsteps =>
    -- a level is compared by the types inside, whatever the other side makes of its name
    have hlevel {fewer : Nat} {type : TypeId} {nodes : List Node} {node' : Node}
        (ih : ∀ nodes',
          Reads checker policy' registry'.identifier? (checker.shapeOf type).inner nodes' →
          Forall₂ (Below fewer registry.definitions registry'.definitions) nodes nodes')
        (h' : Reads checker policy' registry'.identifier? [type] [node']) :
        Below fewer registry.definitions registry'.definitions
          (checker.bodyOf type nodes) node' := by
      obtain ⟨_, ⟨nodes', hinner', -, rfl⟩, hbelow⟩ := exists_readsBody_of_reads hs' hpending' h'
      have hlevels : Below fewer registry.definitions registry'.definitions
          (checker.bodyOf type nodes) (checker.bodyOf type nodes') :=
        Shape.related_build (.below _ _ _) (TypeInfo.plain_shape _) _ (ih nodes' hinner')
      exact hbelow _ _ _ hlevels
    induction h generalizing nodes' with
    | nil =>
      obtain rfl := List.length_eq_zero_iff.mp h'.length_eq.symm
      exact .nil
    | cons _ _ ihfirst ihrest =>
      obtain ⟨node', rest', rfl, hfirst', hrest'⟩ := h'.exists_cons
      cases ihfirst hfirst' with
      | cons hfirst _ => exact .cons hfirst (ihrest hrest')
    | level unnamed _ readable ih =>
      obtain ⟨node', rfl⟩ := h'.exists_singleton
      exact .cons (hlevel (fun _ => ih) h') .nil
    | inPlace named inPlace _ readable ih =>
      obtain ⟨node', rfl⟩ := h'.exists_singleton
      exact .cons (hlevel (fun _ => ih) h') .nil
    | named named identifier? text =>
      obtain ⟨node', rfl⟩ := h'.exists_singleton
      -- following the reference costs a step, which pays for comparing the body
      refine .cons (Below.reference ?_) .nil
      intro fewer hlt body hbody
      obtain ⟨definition, hd, rfl⟩ := Option.map_eq_some_iff.mp hbody
      obtain ⟨nodes, hinner, -, heq⟩ := hs.readsBody hpending identifier? hd
      rw [heq]
      exact hlevel (fun _ => ihsteps fewer hlt hinner) h'

end

/-- What a policy makes of its definitions does not change the meaning. -/
theorem sameMeaning_finish (policy : Policy) (root : Node) (definitions : DefinitionMap) :
    Extraction.SameMeaning ⟨root, definitions⟩ (policy.finish root definitions) := by
  cases policy with
  | named | aliasesOnly => exact fun _ _ => .rfl
  | recursiveOnly => exact DefinitionMap.sameMeaning_inlineAcyclic root

theorem sameMeaning_of_extract {type : TypeId} {extraction extraction' : Extraction}
    (h : checker.extract policy type = .ok extraction)
    (h' : checker.extract policy' type = .ok extraction') : extraction.SameMeaning extraction' := by
  obtain ⟨root, registry, rfl, hs, hpending, hreads⟩ := exists_reads_of_extract h
  obtain ⟨root', registry', rfl, hs', hpending', hreads'⟩ := exists_reads_of_extract h'
  -- the walks mean the same, each showing all that the other one shows
  have hwalks :
      Extraction.SameMeaning ⟨root, registry.definitions⟩ ⟨root', registry'.definitions⟩ := by
    refine Extraction.sameMeaning_of_below ?_ ?_
    · intro steps
      have hbelow := forall₂_below_of_reads hs hpending hs' hpending' steps hreads hreads'
      exact (List.forall₂_cons.mp hbelow).1
    · intro steps
      have hbelow := forall₂_below_of_reads hs' hpending' hs hpending steps hreads' hreads
      exact (List.forall₂_cons.mp hbelow).1
  have hfinish := (sameMeaning_finish policy root registry.definitions).symm
  have hfinish' := sameMeaning_finish policy' root' registry'.definitions
  exact (hfinish.trans hwalks).trans hfinish'

end Checker

namespace TypeStore

open Checker

/-- Under two policies, extractions of one type fail alike or mean the same. -/
theorem extract_sameMeaning (store : TypeStore) (policy policy' : Policy) (type : TypeId) :
    (∃ halt, store.checker.extract policy type = .error halt ∧
      store.checker.extract policy' type = .error halt) ∨
    ∃ extraction extraction', store.checker.extract policy type = .ok extraction ∧
      store.checker.extract policy' type = .ok extraction' ∧
      extraction.SameMeaning extraction' := by
  have hb := store.bounded_checker
  cases h : store.checker.extract policy type with
  | error halt =>
    have hreason := (extract_eq_error_iff hb).mp h
    exact .inl ⟨halt, rfl, (extract_eq_error_iff hb).mpr hreason⟩
  | ok extraction =>
    -- whether an extraction ends well does not depend on the policy
    have hclean := (exists_extract_eq_ok_iff hb).mp ⟨extraction, h⟩
    obtain ⟨extraction', h'⟩ := (exists_extract_eq_ok_iff hb).mpr hclean
    exact .inr ⟨extraction, extraction', rfl, h', sameMeaning_of_extract h h'⟩

end TypeStore

end TypeGraph
