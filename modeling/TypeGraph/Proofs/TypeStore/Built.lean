import TypeGraph.Proofs.TypeStore.Rendering
import TypeGraph.TypeStore.Operation

/-!
# Renderings in stores that are built step by step

A type can only be about types that were there when it was made, so its text is put together from
texts of older types. Only `TypeStore.define` can put newer ones into it. What was completed in this
way and is written by its structure is therefore on every circle of a rendering
(`TypeStore.endless_iff`): renderings end in every store in which all that is completed is written
by name.
-/

namespace TypeGraph

open Relation

/-! ## Written by name -/

/-- A type is written by its alias or by a name of its own, whatever its structure is. The name of a
reference is that of the generic, with the arguments behind it. -/
def TypeEntry.ByName (entry : TypeEntry) : Prop :=
  entry.aliased.isSome ∨
    (∃ name, entry.symbol = some name ∧ name ≠ TypeStore.anonymous) ∧
      ∀ arguments, entry.data ≠ .reference arguments

/-- What is written by name is about the arguments of its alias, and otherwise about nothing. -/
theorem TypeEntry.ByName.rendered_eq {entry : TypeEntry} (h : entry.ByName) :
    entry.rendered = (entry.aliased.map Prod.snd).getD [] := by
  obtain ⟨data, symbol, aliased⟩ := entry
  cases aliased with
  | some written => rfl
  | none =>
    obtain ⟨⟨name, rfl, hproper⟩, hdata⟩ := h.resolve_left Bool.false_ne_true
    cases data with
    | reference arguments => exact absurd rfl (hdata arguments)
    | _ => exact if_neg hproper

/-- The text of a type without an alias is about the types in its structure, or about none of
them. -/
theorem TypeEntry.rendered_subset (data : TypeData) (symbol : Option String) :
    ({ data, symbol } : TypeEntry).rendered ⊆ data.rendered := by
  unfold rendered
  cases data with
  | reference arguments => exact List.Subset.refl _
  | _ =>
    cases symbol with
    | none => exact List.Subset.refl _
    | some name =>
      show (if name = TypeStore.anonymous then _ else ([] : List TypeId)) ⊆ TypeData.rendered _
      split
      · exact List.Subset.refl _
      · exact List.nil_subset _

namespace TypeStore

variable {store : TypeStore} {entry : TypeEntry}

/-! ## Stored types -/

theorem size_push : (store.push entry).2.size = store.size + 1 := by
  simp [push, size]

theorem entry_push_of_lt {type : TypeId} (h : type < store.size) :
    (store.push entry).2.entry type = store.entry type := by
  have hne : type ≠ store.entries.size := Nat.ne_of_lt h
  simp [push, TypeStore.entry, Array.getElem?_push, hne]

theorem entry_push_size : (store.push entry).2.entry store.size = entry := by
  simp [push, TypeStore.entry, size]

theorem entry_define_of_ne {type declared body : TypeId} (h : type ≠ declared) :
    (store.define declared body).entry type = store.entry type := by
  simp [define, TypeStore.entry, h.symm]

/-- A type keeps its alias. -/
theorem aliased_define (declared body type : TypeId) :
    ((store.define declared body).entry type).aliased = (store.entry type).aliased := by
  by_cases hne : type = declared
  · subst hne
    by_cases hlt : type < store.entries.size
    · simp [define, TypeStore.entry, hlt]
    · simp [define, TypeStore.entry, hlt]
  · rw [entry_define_of_ne hne]

/-! ## Steps -/

/-- The types that a step is about. -/
def Operation.types : Operation → List TypeId
  | .intrinsic _ | .literal _ | .booleanLiteral _ | .declareInterface _ => []
  | .object members | .interface _ members => members.rendered
  | .function parameters returns => parameters ++ [returns]
  | .tuple elements => elements.map TupleElement.type
  | .union members | .intersection members => members
  | .reference _ arguments | .declareAlias _ arguments => arguments
  | .record key value => [key, value]
  | .addAlias _ arguments body => body :: arguments
  | .define declared body => [declared, body]

/-- A store that the steps have built, each of them about types that were there before it. -/
inductive Built : List Operation → TypeStore → Prop where
  | new : Built [] {}
  | step {operations : List Operation} {store : TypeStore} (built : Built operations store)
      (operation : Operation) (known : ∀ type ∈ operation.types, type < store.size) :
      Built (operations ++ [operation]) (operation.apply store).2

/-! ## What the text of a type is about -/

/-- The types in the text of a type are older than it, unless it was completed later and is not
written by name. -/
def Ordered (completed : TypeId → Prop) (store : TypeStore) : Prop :=
  ∀ type other, store.Renders type other →
    other < type ∨ completed type ∧ ¬ (store.entry type).ByName

variable {completed : TypeId → Prop}

theorem Ordered.push (h : Ordered completed store)
    (hentry : ∀ other ∈ entry.rendered, other < store.size) :
    Ordered completed (store.push entry).2 := by
  intro type other hrenders
  have hlt : type < store.size + 1 := by simpa [size_push] using hrenders.lt_size
  -- a type from before, or the one that is added
  rcases Nat.lt_succ_iff_lt_or_eq.mp hlt with hold | rfl
  · rw [Renders, entry_push_of_lt hold] at hrenders
    rw [entry_push_of_lt hold]
    exact h type other hrenders
  · rw [Renders, entry_push_size] at hrenders
    exact .inl (hentry other hrenders)

/-- What is completed may be about any type, unless it is written by name. -/
theorem Ordered.define (h : Ordered completed store) {declared : TypeId}
    (hcompleted : completed declared) (body : TypeId) :
    Ordered completed (store.define declared body) := by
  intro type other hrenders
  by_cases hne : type = declared
  · subst hne
    by_cases hname : ((store.define type body).entry type).ByName
    · -- the alias is the one from before, and the text is about its arguments now as then
      rw [Renders, hname.rendered_eq, aliased_define] at hrenders
      have hold : (store.entry type).ByName := by
        refine .inl (Option.isSome_iff_ne_none.mpr ?_)
        intro hnone
        rw [hnone] at hrenders
        exact absurd hrenders List.not_mem_nil
      have hbefore : store.Renders type other := by rwa [Renders, hold.rendered_eq]
      exact .inl ((h type other hbefore).resolve_right fun hloose => hloose.2 hold)
    · exact .inr ⟨hcompleted, hname⟩
  · rw [Renders, entry_define_of_ne hne] at hrenders
    rw [entry_define_of_ne hne]
    exact h type other hrenders

theorem Ordered.mono {completed' : TypeId → Prop} (h : Ordered completed store)
    (hmono : ∀ type, completed type → completed' type) : Ordered completed' store :=
  fun type other hrenders => (h type other hrenders).imp_right (And.imp_left (hmono type))

theorem Ordered.intrinsic (h : Ordered completed store) (flag : TypeFlag) :
    Ordered completed (store.intrinsic flag).2 := by
  unfold TypeStore.intrinsic
  split
  · exact h.push (by simp [TypeEntry.rendered, TypeData.rendered])
  · split
    · exact h
    · -- which flags have a type is noted beside the stored types
      have hpush : Ordered completed (store.push { data := .intrinsic flag }).2 :=
        h.push (by simp [TypeEntry.rendered, TypeData.rendered])
      exact hpush

theorem Ordered.push_data (h : Ordered completed store) {data : TypeData} (symbol : Option String)
    (hdata : ∀ other ∈ data.rendered, other < store.size) :
    Ordered completed (store.push { data, symbol }).2 :=
  h.push fun other hother => hdata other (TypeEntry.rendered_subset data symbol hother)

/-- Every step keeps the order; a definition completes a type. -/
theorem Ordered.apply (h : Ordered completed store) {operation : Operation}
    (hknown : ∀ type ∈ operation.types, type < store.size)
    (hdefine : ∀ declared body, operation = .define declared body → completed declared) :
    Ordered completed (operation.apply store).2 := by
  -- all steps but a definition add types, which are about no others than the step is
  cases operation with
  | intrinsic flag => exact h.intrinsic flag
  | literal | booleanLiteral | declareInterface =>
    exact h.push_data _ fun _ hother => absurd hother List.not_mem_nil
  | object | interface | tuple | union | intersection | reference => exact h.push_data _ hknown
  | function parameters returns =>
    exact h.push_data _
      (by simpa [TypeData.rendered, ObjectType.rendered, Operation.types] using hknown)
  | declareAlias => exact h.push hknown
  | addAlias name arguments body =>
    exact h.push fun other hother => hknown other (List.mem_cons_of_mem body hother)
  | record key value =>
    -- the body comes first, and the alias of it is about the arguments
    have hvalue := hknown value (by simp [Operation.types])
    have hbody : Ordered completed (store.object { stringIndex := some value }).2 :=
      h.push_data _ (by simpa [TypeData.rendered, ObjectType.rendered] using hvalue)
    refine hbody.push fun other hother => ?_
    rw [object, size_push]
    exact Nat.lt_succ_of_lt (hknown other hother)
  | define declared body => exact h.define (hdefine declared body rfl) body

/-- In a store that was built, only what was completed is about types that are not older. -/
theorem Built.ordered {operations : List Operation} (h : Built operations store) :
    Ordered (fun type => ∃ body, Operation.define type body ∈ operations) store := by
  induction h with
  | new =>
    -- nothing is stored, so no text is about anything
    intro type other hrenders
    exact absurd hrenders.lt_size (Nat.not_lt_zero type)
  | step built operation known ih =>
    refine Ordered.apply (ih.mono ?_) known ?_
    · rintro type ⟨body, hbody⟩
      exact ⟨body, List.mem_append_left _ hbody⟩
    · rintro declared body rfl
      exact ⟨body, List.mem_append_right _ List.mem_cons_self⟩

/-! ## Renderings without an end -/

theorem text_eq_none_iff_forall {type : TypeId} :
    store.text type = none ↔ ∀ depth, store.textWithin depth type = none := by
  constructor
  · intro h
    exact textWithin_eq_none_of_comesBack (text_eq_none_iff.mp h)
  · exact fun h => h _

/-- A rendering in a store that was built step by step has no end exactly if it comes to a type that
was completed later, is not written by name, and contains itself. -/
theorem endless_iff {operations : List Operation} (h : Built operations store) (type : TypeId) :
    -- the bound on the depth is not what makes a rendering fail
    (store.text type = none ↔ ∀ depth, store.textWithin depth type = none) ∧
    (store.text type = none ↔
      ∃ looped body, .define looped body ∈ operations ∧ ¬ (store.entry looped).ByName ∧
        ReflTransGen store.Renders type looped ∧ TransGen store.Renders looped looped) ∧
    -- so every rendering ends if all that is completed is written by name
    ((∀ declared body, .define declared body ∈ operations → (store.entry declared).ByName) →
      ∃ text, store.text type = some text) := by
  have hiff : store.text type = none ↔
      ∃ looped body, .define looped body ∈ operations ∧ ¬ (store.entry looped).ByName ∧
        ReflTransGen store.Renders type looped ∧ TransGen store.Renders looped looped := by
    rw [text_eq_none_iff]
    constructor
    · rintro ⟨first, hfirst, hloop⟩
      -- somewhere on the circle a type is about one that is not older
      obtain ⟨looped, next, hlooped, hnext, hrise, hback⟩ :=
        exists_rise_of_transGen hloop (Nat.le_refl _)
      obtain ⟨⟨body, hbody⟩, hname⟩ :=
        (h.ordered looped next hnext).resolve_left (Nat.not_lt.mpr hrise)
      exact ⟨looped, body, hbody, hname, hfirst.trans hlooped, .head' hnext (hback.trans hlooped)⟩
    · rintro ⟨looped, -, -, -, hreach, hloop⟩
      exact ⟨looped, hreach, hloop⟩
  refine ⟨text_eq_none_iff_forall, hiff, ?_⟩
  intro hnames
  -- a type that contains itself would be one that was completed and is not written by name
  refine Option.ne_none_iff_exists'.mp fun hnone => ?_
  obtain ⟨looped, body, hbody, hname, -⟩ := hiff.mp hnone
  exact hname (hnames looped body hbody)

/-- An interface that is a union with itself in it is written by name. -/
theorem unionWithItself_rendered :
    ∃ store,
      Built [.declareInterface "Node", .intrinsic .string, .union [1, 0], .define 0 2] store ∧
      (∀ type, ∃ text, store.text type = some text) ∧ store.text 2 = some "string | Node" := by
  have hbuilt := (((Built.new.step (.declareInterface "Node") (by simp [Operation.types])).step
    (.intrinsic .string) (by simp [Operation.types])).step (.union [1, 0]) (by decide)).step
      (.define 0 2) (by decide)
  refine ⟨_, hbuilt, ?_, by decide⟩
  intro type
  refine (endless_iff hbuilt type).2.2 fun declared body hdefine => ?_
  obtain ⟨rfl, rfl⟩ : declared = 0 ∧ body = 2 := by simpa using hdefine
  exact .inr ⟨⟨"Node", rfl, by decide⟩, fun arguments hdata => by cases hdata⟩

/-- An interface that is an array of itself is written as a reference, though it has a name of its
own. -/
theorem arrayOfInterface_endless :
    ∃ store, Built [.declareInterface "Foo", .reference "Array" [0], .define 0 1] store ∧
      ∀ depth, store.textWithin depth 0 = none := by
  have hbuilt := ((Built.new.step (.declareInterface "Foo") (by simp [Operation.types])).step
    (.reference "Array" [0]) (by decide)).step (.define 0 1) (by decide)
  refine ⟨_, hbuilt, textWithin_eq_none_of_comesBack ⟨0, .refl, .single ?_⟩⟩
  show 0 ∈ [0]
  exact List.mem_singleton.mpr rfl

end TypeStore

end TypeGraph
