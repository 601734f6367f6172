import TypeGraph.Proofs.JsonSchema.Writes
import TypeGraph.Proofs.Lists

/-!
# What a written schema means

What is written for a node accepts the values that belong to the node. Both sides are least
relations, and they are matched level by level: a level that is written checks what the rules of
membership admit.

Main results:

* `Writes.belongs`, `Writes.checks`: the two directions for one level.
* `validates_iff_belongs`: the two directions for all levels.
-/

namespace TypeGraph

/-! ## Levels without parts -/

theorem Binary64.beq_zero {x z : Binary64} (hnumber : x.isNaN = false) (hzero : x.isZero = true) :
    z.beq x = (!z.isNaN && z.isZero) := by
  have hsame : (z == x || (z.isZero && x.isZero)) = z.isZero := by
    rw [hzero, Bool.and_true, Bool.or_eq_right_iff_imp]
    intro heq
    exact (eq_of_beq heq).symm ▸ hzero
  rw [beq, hnumber, hsame, Bool.not_false, Bool.and_true]

/-- Numbers that are equal are equal to the same numbers. -/
theorem Binary64.beq_congr {x y z : Binary64} (h : x.beq y = true) : z.beq x = z.beq y := by
  simp only [beq, Bool.and_eq_true, Bool.or_eq_true, Bool.not_eq_true', beq_iff_eq] at h
  obtain ⟨⟨hx, hy⟩, rfl | ⟨hzero, hzero'⟩⟩ := h
  · rfl
  · rw [beq_zero hx hzero, beq_zero hy hzero']

namespace JsonSchema

open Json

variable {definitions : DefinitionMap} {document value : Json} {nameOf : LazyId → String}
  {inner accepts : Json → Json → Prop} {part : JsonSchema → Node → Prop} {schema : JsonSchema}
  {node : Node}

theorem checks_primitive {kind : Primitive} (hinner : inner value (.object []))
    (h : SchemaGraph.renderPrimitive kind = .ok schema) :
    Checks document inner accepts value (.object (schema.toJson nameOf)) ↔ kind.Admits value := by
  cases kind with
  | string | number | boolean | null =>
    cases h
    rw [checks_type]
    cases value <;> simp [typeName?, Primitive.Admits]
  | any | unknown =>
    cases h
    exact ⟨fun _ => trivial, fun _ => checks_anything⟩
  | never =>
    cases h
    exact ⟨not_checks_nothing hinner, False.elim⟩
  | _ => cases h

theorem checks_literal {literal : Literal} (h : SchemaGraph.renderLiteral literal = .ok schema) :
    Checks document inner accepts value (.object (schema.toJson nameOf)) ↔
    literal.Admits value := by
  cases literal with
  | string | boolean | null =>
    cases h
    rw [checks_const]
    cases value <;> simp [same, Literal.Admits]
  | number x =>
    rw [SchemaGraph.renderLiteral] at h
    split at h
    · rename_i hfinite
      cases h
      -- the numeral that is written is nearest to the number itself
      have hnumeral : (numberLayout.numeral x).nearest.beq x = true :=
        Layout.nearest_numeral numberLayout hfinite
      rw [checks_const, ofBinary64, if_pos hfinite]
      cases value <;> simp [same, Literal.Admits, Binary64.beq_congr hnumeral]
    · cases h
  | bigint => cases h

/-! ## Least lengths -/

theorem length_dropWhile_le_iff {flags : List Bool} {count : Nat} :
    (flags.dropWhile (! ·)).length ≤ count ↔
      ∀ flag ∈ flags.take (flags.length - count), flag = false := by
  -- a leading mark that is not set is dropped; the first one that is set stays, and all behind it
  induction flags with
  | nil => simp
  | cons flag rest ih =>
    cases flag with
    | false =>
      rw [List.dropWhile_cons_of_pos rfl, ih, List.length_cons]
      by_cases hcount : count ≤ rest.length
      · rw [Nat.sub_add_comm hcount, List.take_succ_cons, List.forall_mem_cons]
        exact (and_iff_right rfl).symm
      · have hnone : rest.length + 1 - count = 0 := by omega
        rw [hnone, show rest.length - count = 0 by omega]
        simp
    | true =>
      rw [List.dropWhile_cons_of_neg Bool.false_ne_true, List.length_cons]
      by_cases hcount : rest.length + 1 ≤ count
      · rw [Nat.sub_eq_zero_of_le hcount]
        simpa using hcount
      · obtain ⟨more, hmore⟩ : ∃ more, rest.length + 1 - count = more + 1 :=
          ⟨rest.length - count, by omega⟩
        rw [hmore, List.take_succ_cons, List.forall_mem_cons]
        exact ⟨fun h => absurd h hcount, fun h => absurd h.1.symm Bool.false_ne_true⟩

/-- A length will do if every place behind it may be left empty. -/
theorem leastLength_le_iff {flags : List Bool} {count : Nat} :
    SchemaGraph.leastLength flags ≤ count ↔ ∀ flag ∈ flags.drop count, flag = false := by
  rw [SchemaGraph.leastLength, length_dropWhile_le_iff, List.length_reverse, List.take_reverse]
  by_cases hcount : count ≤ flags.length
  · rw [Nat.sub_sub_self hcount]
    simp
  · rw [Nat.sub_eq_zero_of_le (Nat.le_of_not_le hcount), Nat.sub_zero]
    simp [List.drop_eq_nil_of_le (Nat.le_of_not_le hcount)]

/-! ## Levels -/

theorem Fills.belongs
    (hpart : ∀ value schema node, part schema node →
      accepts value (.object (schema.toJson nameOf)) → definitions.Belongs value node)
    (h : Fills part schema node) (haccepts : accepts value (.object (schema.toJson nameOf))) :
    definitions.Belongs value node := by
  cases h with
  | required written => exact hpart _ _ _ written haccepts
  | optional written =>
    exact DefinitionMap.belongs_union.mpr ⟨_, List.mem_cons_self, hpart _ _ _ written haccepts⟩

/-- What a level that is written checks belongs to its node, if what is accepted elsewhere does. -/
theorem Writes.belongs (hinner : inner value (.object []))
    (hfalse : ∀ value, ¬ accepts value (.bool false))
    (hpart : ∀ value schema node, part schema node →
      accepts value (.object (schema.toJson nameOf)) → definitions.Belongs value node)
    (h : Writes definitions document nameOf part schema node)
    (hchecks : Checks document inner accepts value (.object (schema.toJson nameOf))) :
    definitions.Belongs value node := by
  refine DefinitionMap.belongs_iff.mpr ?_
  cases h with
  | primitive rendered => exact (checks_primitive hinner rendered).mp hchecks
  | literal rendered => exact (checks_literal rendered).mp hchecks
  | array written =>
    obtain ⟨elements, hvalue, hitems, -⟩ := checks_array.mp hchecks
    exact ⟨elements, hvalue, fun element he => hpart _ _ _ written (hitems element he)⟩
  | set written =>
    obtain ⟨elements, hvalue, hitems, hunique⟩ := checks_array.mp hchecks
    exact ⟨elements, hvalue, fun element he => hpart _ _ _ written (hitems element he), hunique rfl⟩
  | record _ keys contents =>
    obtain ⟨entries, hvalue, hnames, hvalues⟩ := checks_record.mp hchecks
    refine ⟨entries, hvalue, .inr ?_, fun entry he => hpart _ _ _ contents (hvalues entry he)⟩
    exact fun entry he => hpart _ _ _ keys (hnames _ rfl entry he)
  | recordOfAnyName unrestricted contents =>
    obtain ⟨entries, hvalue, -, hvalues⟩ := checks_record.mp hchecks
    exact ⟨entries, hvalue, .inl unrestricted,
      fun entry he => hpart _ _ _ contents (hvalues entry he)⟩
  | @object properties shape distinct slots =>
    obtain ⟨entries, hvalue, hcontents, hrequired⟩ := checks_object.mp hchecks
    rw [DefinitionMap.Admits, Entries.ofList_eq_self distinct]
    refine ⟨entries, hvalue, ?_, ?_⟩
    · intro property hp hneeded
      refine hrequired _ (List.mem_map_of_mem (List.mem_filter.mpr ⟨hp, ?_⟩))
      rw [hneeded]
      rfl
    · intro entry he node hnode
      have hslots : List.Forall₂ (fun property' property => property'.1 = property.1 ∧
          Fills part property.2 property'.2) shape properties :=
        slots.flip.imp fun _ _ hslot => ⟨hslot.1.symm, hslot.2⟩
      obtain ⟨schema, hschema, hfills⟩ := Entries.exists_get?_of_forall₂
        (R := fun node schema => Fills part schema node) hslots hnode
      exact hfills.belongs hpart (hcontents entry he schema hschema)
  | union members =>
    obtain ⟨schema, hs, haccepts⟩ := checks_anyOf.mp hchecks
    obtain ⟨member, hm, hmember⟩ := exists_of_mem_forall₂ members hs
    exact ⟨member, hm, hpart _ _ _ hmember haccepts⟩
  | intersection members =>
    intro member hm
    obtain ⟨schema, hs, hmember⟩ := exists_of_mem_forall₂ members.flip hm
    exact hpart _ _ _ hmember (checks_allOf.mp hchecks schema hs)
  | tuple slots =>
    obtain ⟨elements, hvalue, hslots, hrest, hleast⟩ := checks_tuple.mp hchecks
    refine ⟨elements, hvalue, ?_, ?_, ?_⟩
    · rw [← slots.length_eq]
      by_contra hlong
      -- an element more would be accepted by the schema that accepts nothing
      have hextra := List.getElem_mem (List.length_pos_of_ne_nil
        (mt List.drop_eq_nil_iff.mp hlong))
      exact hfalse _ (hrest _ hextra)
    · intro slot hs
      obtain ⟨schema, hschema, hfills⟩ := exists_of_mem_zip slots.flip hs
      exact hfills.belongs hpart (hslots _ hschema)
    · intro node hn
      have hflag := leastLength_le_iff.mp hleast (!node.isOptional)
      rw [← List.map_drop] at hflag
      simpa using hflag (List.mem_map_of_mem hn)
  | reference found written entry =>
    obtain ⟨target, htarget, haccepts⟩ := checks_ref.mp hchecks
    cases entry.symm.trans htarget
    exact ⟨_, found, hpart _ _ _ written haccepts⟩

/-- What the rules of membership admit to a node is checked by what is written for it, if what
belongs to its parts is accepted. -/
theorem Writes.checks {belongs : Json → Node → Prop} (hinner : inner value (.object []))
    (hpart : ∀ value schema node, Fills part schema node → belongs value node →
      accepts value (.object (schema.toJson nameOf)))
    (h : Writes definitions document nameOf part schema node)
    (hadmits : definitions.Admits belongs value node) :
    Checks document inner accepts value (.object (schema.toJson nameOf)) := by
  cases h with
  | primitive rendered => exact (checks_primitive hinner rendered).mpr hadmits
  | literal rendered => exact (checks_literal rendered).mpr hadmits
  | array written =>
    obtain ⟨elements, hvalue, hparts⟩ := hadmits
    refine checks_array.mpr ⟨elements, hvalue, ?_, fun h => absurd h Bool.false_ne_true⟩
    exact fun element he => hpart _ _ _ (.required written) (hparts element he)
  | set written =>
    obtain ⟨elements, hvalue, hparts, hdistinct⟩ := hadmits
    refine checks_array.mpr ⟨elements, hvalue, ?_, fun _ => hdistinct⟩
    exact fun element he => hpart _ _ _ (.required written) (hparts element he)
  | record restricted keys contents =>
    obtain ⟨entries, hvalue, hnames, hvalues⟩ := hadmits
    refine checks_record.mpr ⟨entries, hvalue, ?_, ?_⟩
    · intro schema hschema entry he
      cases hschema
      exact hpart _ _ _ (.required keys) (hnames.resolve_left restricted entry he)
    · exact fun entry he => hpart _ _ _ (.required contents) (hvalues entry he)
  | recordOfAnyName _ contents =>
    obtain ⟨entries, hvalue, -, hvalues⟩ := hadmits
    refine checks_record.mpr ⟨entries, hvalue, fun _ h => absurd h (Option.not_mem_none _), ?_⟩
    exact fun entry he => hpart _ _ _ (.required contents) (hvalues entry he)
  | object distinct slots =>
    rw [DefinitionMap.Admits, Entries.ofList_eq_self distinct] at hadmits
    obtain ⟨entries, hvalue, hrequired, hcontents⟩ := hadmits
    refine checks_object.mpr ⟨entries, hvalue, ?_, ?_⟩
    · intro entry he schema hschema
      obtain ⟨node, hnode, hfills⟩ := Entries.exists_get?_of_forall₂ slots hschema
      exact hpart _ _ _ hfills (hcontents entry he node hnode)
    · intro name hn
      obtain ⟨property, hp, rfl⟩ := List.mem_map.mp hn
      obtain ⟨hp, hneeded⟩ := List.mem_filter.mp hp
      exact hrequired property hp (by simpa using hneeded)
  | union members =>
    obtain ⟨member, hm, hbelongs⟩ := hadmits
    obtain ⟨schema, hs, hmember⟩ := exists_of_mem_forall₂ members.flip hm
    exact checks_anyOf.mpr ⟨schema, hs, hpart _ _ _ (.required hmember) hbelongs⟩
  | intersection members =>
    refine checks_allOf.mpr fun schema hs => ?_
    obtain ⟨member, hm, hmember⟩ := exists_of_mem_forall₂ members hs
    exact hpart _ _ _ (.required hmember) (hadmits member hm)
  | tuple slots =>
    obtain ⟨elements, hvalue, hlength, hparts, hrest⟩ := hadmits
    rw [← slots.length_eq] at hlength
    refine checks_tuple.mpr ⟨elements, hvalue, ?_, ?_, ?_⟩
    · intro slot hs
      obtain ⟨node, hn, hfills⟩ := exists_of_mem_zip slots hs
      exact hpart _ _ _ hfills (hparts _ hn)
    · -- no element is left to the schema that accepts nothing
      rw [List.drop_eq_nil_of_le hlength]
      exact fun _ h => absurd h List.not_mem_nil
    · refine leastLength_le_iff.mpr ?_
      rw [← List.map_drop, List.forall_mem_map]
      intro node hn
      rw [hrest node hn]
      rfl
  | reference found written entry =>
    obtain ⟨body, hbody, hbelongs⟩ := hadmits
    cases found.symm.trans hbody
    exact checks_ref.mpr ⟨_, entry, hpart _ _ _ (.required written) hbelongs⟩

/-! ## The least relations -/

theorem validatesInner_empty : document.ValidatesInner value (.object []) :=
  Least.lfp_iff.mpr fun _ h => absurd h List.not_mem_nil

theorem not_validates_false : ¬ document.Validates value (.bool false) :=
  fun h => Bool.false_ne_true (validates_iff.mp h)

/-- Where everything that stands for a part is written level by level, it accepts what belongs to
the part. -/
theorem validates_iff_belongs
    (hwrites : ∀ schema node, part schema node →
      Writes definitions document nameOf part schema node)
    (h : part schema node) :
    document.Validates value (.object (schema.toJson nameOf)) ↔ definitions.Belongs value node := by
  constructor
  · -- induction on validation: the part that a schema is written for is whatever it was written for
    intro hvalid
    refine hvalid.induction (motive := fun value json => ∀ schema node, part schema node →
      json = .object (schema.toJson nameOf) → definitions.Belongs value node) ?_ schema node h rfl
    rintro value _ hchecks schema node hpart rfl
    refine (hwrites schema node hpart).belongs validatesInner_empty ?_ ?_ hchecks
    · exact fun _ haccepts => not_validates_false haccepts.1
    · exact fun _ schema node hpart haccepts => haccepts.2 schema node hpart rfl
  · intro hbelongs
    refine hbelongs.induction (motive := fun value node => ∀ schema, Fills part schema node →
      document.Validates value (.object (schema.toJson nameOf))) ?_ schema (.required h)
    intro value node hadmits schema hfills
    cases hfills with
    | required written =>
      refine validates_iff.mpr ((hwrites _ _ written).checks validatesInner_empty ?_ hadmits)
      exact fun _ schema _ hfills hbelongs => hbelongs.2 schema hfills
    | optional written =>
      obtain ⟨member, hm, hmember, hvalid⟩ := hadmits
      rcases List.mem_cons.mp hm with rfl | hm
      · exact hvalid schema (.required written)
      · -- nothing belongs to `undefined`
        rw [List.mem_singleton.mp hm] at hmember
        exact absurd hmember DefinitionMap.not_belongs_undefined

end JsonSchema

end TypeGraph
