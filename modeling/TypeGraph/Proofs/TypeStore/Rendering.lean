import TypeGraph.Proofs.Chain
import TypeGraph.TypeStore.Text

/-!
# When a stored type can be rendered

The text of a stored type is put together from the texts of the types that `Renders` leads to. It
has no end exactly if that leads in a circle (`TypeStore.text_eq_none_iff`): the bound on the depth
of a rendering is never what makes it fail.
-/

namespace TypeGraph

open Relation

/-! ## One level -/

/-- The types whose texts are part of the text of an object type. -/
def ObjectType.rendered (object : ObjectType) : List TypeId :=
  object.stringIndex.toList ++ object.numberIndex.toList
    ++ object.signatures.flatMap (fun signature => signature.parameters ++ [signature.returns])
    ++ object.properties.map Property.type

/-- The types whose texts are part of the text of a type without a name. -/
def TypeData.rendered : TypeData → List TypeId
  | declared | intrinsic _ | literal _ | boolean _ => []
  | object members => members.rendered
  | tuple elements => elements.map TupleElement.type
  | reference arguments => arguments
  | union members | intersection members => members

/-- The types whose texts are part of the text of a stored type. -/
def TypeEntry.rendered (entry : TypeEntry) : List TypeId :=
  match entry.aliased, entry.symbol, entry.data with
  | some (_, arguments), _, _ => arguments
  | none, _, .reference arguments => arguments
  | none, some name, data => if name = TypeStore.anonymous then data.rendered else []
  | none, none, data => data.rendered

section

variable {α β : Type} (rendering : TypeId → Option String)

theorem isSome_mapM (f : α → Option β) (items : List α) :
    (items.mapM f).isSome = items.all fun item => (f item).isSome := by
  induction items with
  | nil => rfl
  | cons item rest ih =>
    -- all or nothing, item by item
    rw [List.mapM_cons, List.all_cons, ← ih]
    cases f item with
    | none => rfl
    | some value => cases rest.mapM f <;> rfl

/-- A text from a part and what follows it. -/
theorem isSome_bind {value : Option α} {f : α → Option β} {rest : Bool}
    (h : ∀ a, (f a).isSome = rest) : (value.bind f).isSome = (value.isSome && rest) := by
  cases value with
  | none => rfl
  | some a => exact h a

/-- A text from a part that nothing can fail behind. -/
theorem isSome_bind_of_total {value : Option α} {f : α → Option β}
    (h : ∀ a, (f a).isSome = true) : (value.bind f).isSome = value.isSome :=
  (isSome_bind h).trans (Bool.and_true _)

theorem isSome_textOfGeneric (name : String) (arguments : List TypeId) :
    (textOfGeneric rendering name arguments).isSome =
      arguments.all fun type => (rendering type).isSome := by
  unfold textOfGeneric textOfAll
  cases arguments with
  | nil => rfl
  | cons first rest =>
    refine (isSome_bind_of_total fun _ => rfl).trans ?_
    rw [Option.isSome_map, isSome_mapM]

theorem isSome_signatureText (arrow : String) (signature : Signature) :
    (signature.text rendering arrow).isSome =
      (signature.parameters ++ [signature.returns]).all fun type => (rendering type).isSome := by
  unfold Signature.text
  -- the parameters first, then what is returned
  rw [List.all_append, ← isSome_mapM]
  refine isSome_bind ?_
  intro parameters
  refine (isSome_bind_of_total fun _ => rfl).trans ?_
  simp

/-- A list of texts, each with more around it. -/
theorem isSome_mapM_bind {ι : Type} (items : List ι) (part : ι → Option α) (f : ι → α → β) :
    (items.mapM fun item => (part item).bind fun a => some (f item a)).isSome =
      items.all fun item => (part item).isSome := by
  rw [isSome_mapM]
  refine congrArg (List.all items) (funext ?_)
  intro item
  exact isSome_bind_of_total fun _ => rfl

theorem isSome_objectText (object : ObjectType) :
    (object.text rendering).isSome = object.rendered.all fun type => (rendering type).isSome := by
  unfold ObjectType.text ObjectType.rendered
  split
  · simp [isSome_signatureText]
  · -- four lists of parts one after the other, each of which may be missing a text
    refine (isSome_bind fun a => isSome_bind fun b => isSome_bind fun c =>
      isSome_bind_of_total fun d => ?_).trans ?_
    · split <;> rfl
    · simp only [Option.bind_eq_bind, Option.pure_def, isSome_mapM_bind, isSome_signatureText,
        List.all_append, List.all_flatMap, List.all_map, Function.comp_def, Bool.and_assoc]

theorem isSome_dataText (symbol : Option String) (data : TypeData) :
    (data.text rendering symbol).isSome = data.rendered.all fun type =>
      (rendering type).isSome := by
  -- a text is put together from the texts of the types inside, and is there if all of these are
  cases data with
  | declared | intrinsic | literal | boolean => rfl
  | object members => exact isSome_objectText rendering members
  | tuple elements =>
    refine (isSome_bind_of_total fun _ => rfl).trans ?_
    simp only [Option.bind_eq_bind, Option.pure_def, isSome_mapM_bind, TypeData.rendered,
      List.all_map, Function.comp_def]
  | reference arguments =>
    simp only [TypeData.text]
    split
    · refine (isSome_bind_of_total fun _ => rfl).trans ?_
      simp [TypeData.rendered]
    · exact isSome_textOfGeneric ..
  | union members | intersection members =>
    simp only [TypeData.text, textOfAll, Option.isSome_map, isSome_mapM, TypeData.rendered]

/-- A level has a text exactly if the types in its text have one. -/
theorem isSome_text (entry : TypeEntry) :
    (entry.text rendering).isSome = entry.rendered.all fun type => (rendering type).isSome := by
  obtain ⟨data, symbol, aliased⟩ := entry
  unfold TypeEntry.text TypeEntry.rendered
  -- an alias is written by its name, and so is a named type; the rest is written out
  rcases aliased with _ | ⟨name, arguments⟩
  · cases data with
    | reference arguments => exact isSome_dataText rendering symbol (.reference arguments)
    | _ =>
      cases symbol with
      | none => exact isSome_dataText ..
      | some name =>
        simp only
        split
        · exact isSome_dataText ..
        · rfl
  · exact isSome_textOfGeneric ..

end

/-! ## All levels -/

namespace TypeStore

variable (store : TypeStore)

/-- The text of the second type is part of the text of the first. -/
def Renders (type other : TypeId) : Prop := other ∈ (store.entry type).rendered

variable {store}

/-- Only stored types have other types in their texts. -/
theorem Renders.lt_size {type other : TypeId} (h : store.Renders type other) :
    type < store.size := by
  by_contra hge
  have hentry : store.entries[type]? = none := Array.getElem?_eq_none (Nat.not_lt.mp hge)
  rw [Renders, entry, hentry] at h
  exact absurd h List.not_mem_nil

/-- A bounded rendering fails along a path as long as the bound. -/
theorem exists_chain_of_textWithin {depth : Nat} {type : TypeId}
    (h : store.textWithin depth type = none) :
    ∃ path, (type :: path).IsChain store.Renders ∧ path.length = depth := by
  induction depth generalizing type with
  | zero => exact ⟨[], .singleton _, rfl⟩
  | succ depth ih =>
    have hall := isSome_text (store.textWithin depth) (store.entry type)
    rw [textWithin] at h
    rw [h, Option.isSome_none, eq_comm, List.all_eq_false] at hall
    -- one of the types in the text has none itself, at the bound that is left
    obtain ⟨other, hother, hnone⟩ := hall
    obtain ⟨path, hpath, hlength⟩ := ih (by simpa using hnone)
    exact ⟨other :: path, hpath.cons_cons hother, by rw [List.length_cons, hlength]⟩

/-- A rendering that comes back to a type fails at every bound. -/
theorem textWithin_eq_none_of_comesBack {type : TypeId} (h : ComesBack store.Renders type)
    (depth : Nat) : store.textWithin depth type = none := by
  induction depth generalizing type with
  | zero => rfl
  | succ depth ih =>
    -- the step on the way back leads to a type without a text
    obtain ⟨other, hother, hback⟩ := h.exists_step
    have hall := isSome_text (store.textWithin depth) (store.entry type)
    have hnot : ((store.entry type).rendered.all fun type =>
        (store.textWithin depth type).isSome) = false :=
      List.all_eq_false.mpr ⟨other, hother, by simp [ih hback]⟩
    rw [hnot] at hall
    rw [textWithin, ← Option.not_isSome_iff_eq_none, hall]
    exact Bool.false_ne_true

/-- A stored type has no text exactly if its rendering comes back to a type. -/
theorem text_eq_none_iff {type : TypeId} :
    store.text type = none ↔ ComesBack store.Renders type := by
  constructor
  · intro h
    -- the bound is the number of types, so a path of that length comes back
    obtain ⟨path, hpath, hlength⟩ := exists_chain_of_textWithin h
    refine comesBack_of_length hpath id (List.range store.size) ?_ ?_ ?_
    · exact fun _ _ _ hstep => List.mem_range.mpr hstep.lt_size
    · exact fun _ _ _ heq => heq
    · rw [List.length_range, hlength]
      exact Nat.lt_succ_self _
  · exact fun h => textWithin_eq_none_of_comesBack h _

end TypeStore

end TypeGraph
