import Mathlib.Data.List.Forall2
import Mathlib.Data.List.Induction

/-!
# Lists side by side

What is in one of two lists that are zipped, or related member by member, and what corresponds to it
in the other. The results of a computation for each member of a list are related to the members.
What is left of a list without duplicates does not depend on whether parts of it had lost theirs
before.
-/

namespace TypeGraph

/-- What a pair of a list has second is smaller than the list. -/
theorem sizeOf_snd_lt_of_mem {α β : Type} [SizeOf α] [SizeOf β] {pairs : List (α × β)}
    {pair : α × β} (h : pair ∈ pairs) : sizeOf pair.2 < sizeOf pairs := by
  have hpair := List.sizeOf_lt_of_mem h
  obtain ⟨first, second⟩ := pair
  rw [Prod.mk.sizeOf_spec] at hpair
  show sizeOf second < sizeOf pairs
  omega

/-! ## Lists taken item by item -/

section

variable {α β : Type}

/-- What takes one item of a list after another is a pass over the list. -/
theorem eq_map {f : α → β} {pass : List α → List β} (nil : pass [] = [])
    (cons : ∀ item rest, pass (item :: rest) = f item :: pass rest) (items : List α) :
    pass items = items.map f := by
  induction items with
  | nil => exact nil
  | cons item rest ih => rw [cons, ih, List.map_cons]

theorem eq_flatMap {f : α → List β} {pass : List α → List β} (nil : pass [] = [])
    (cons : ∀ item rest, pass (item :: rest) = f item ++ pass rest) (items : List α) :
    pass items = items.flatMap f := by
  induction items with
  | nil => exact nil
  | cons item rest ih => rw [cons, ih, List.flatMap_cons]

end

/-! ## Zipped lists -/

section

variable {α β γ : Type} {f : α → β → γ}

theorem exists_of_mem_zipWith {as : List α} {bs : List β} {c : γ} (h : c ∈ as.zipWith f bs) :
    ∃ a ∈ as, ∃ b ∈ bs, c = f a b := by
  rw [← List.map_uncurry_zip_eq_zipWith] at h
  obtain ⟨⟨a, b⟩, hm, rfl⟩ := List.mem_map.mp h
  exact ⟨a, (List.of_mem_zip hm).1, b, (List.of_mem_zip hm).2, rfl⟩

theorem zipWith_left (g : α → γ) {as : List α} {bs : List β} (hlength : as.length ≤ bs.length) :
    as.zipWith (fun a _ => g a) bs = as.map g := by
  induction as generalizing bs with
  | nil => rfl
  | cons a as ih =>
    cases bs with
    | nil => exact absurd hlength (Nat.not_succ_le_zero _)
    | cons b bs =>
      rw [List.zipWith_cons_cons, List.map_cons, ih (Nat.le_of_succ_le_succ hlength)]

/-- Nothing of a list is lost to a list that is as long. -/
theorem exists_mem_zipWith {as : List α} {bs : List β} (hlength : bs.length ≤ as.length) {b : β}
    (hb : b ∈ bs) : ∃ a ∈ as, f a b ∈ as.zipWith f bs := by
  obtain ⟨i, hi, rfl⟩ := List.getElem_of_mem hb
  have hi' : i < as.length := Nat.lt_of_lt_of_le hi hlength
  refine ⟨as[i], List.getElem_mem hi', List.mem_of_getElem? (i := i) ?_⟩
  rw [List.getElem?_zipWith, List.getElem?_eq_getElem hi', List.getElem?_eq_getElem hi]

theorem exists_mem_zip {as : List α} {bs : List β} (hlength : as.length ≤ bs.length) {a : α}
    (ha : a ∈ as) : ∃ b, (a, b) ∈ as.zip bs := by
  obtain ⟨i, hi, rfl⟩ := List.getElem_of_mem ha
  have hi' : i < bs.length := Nat.lt_of_lt_of_le hi hlength
  refine ⟨bs[i], List.mem_of_getElem? (i := i) ?_⟩
  rw [List.getElem?_zip_eq_some]
  exact ⟨List.getElem?_eq_getElem hi, List.getElem?_eq_getElem hi'⟩

end

/-! ## Related lists -/

section

variable {ι α β : Type} {R : α → β → Prop} {as : List α} {bs : List β}

theorem exists_of_mem_forall₂ (h : List.Forall₂ R as bs) {a : α} (hm : a ∈ as) :
    ∃ b ∈ bs, R a b := by
  induction h with
  | nil => exact absurd hm List.not_mem_nil
  | cons hfirst _ ih =>
    rcases List.mem_cons.mp hm with rfl | hm
    · exact ⟨_, List.mem_cons_self, hfirst⟩
    · obtain ⟨b, hb, hab⟩ := ih hm
      exact ⟨b, List.mem_cons_of_mem _ hb, hab⟩

theorem forall₂_imp_of_mem {S : α → β → Prop} (h : List.Forall₂ R as bs)
    (himp : ∀ a b, b ∈ bs → R a b → S a b) : List.Forall₂ S as bs := by
  induction h with
  | nil => exact .nil
  | cons hfirst _ ih =>
    exact .cons (himp _ _ List.mem_cons_self hfirst)
      (ih fun a b hb => himp a b (List.mem_cons_of_mem _ hb))

/-- A function that agrees on related members makes one list of both. -/
theorem map_eq_of_forall₂ {γ : Type} {f : α → γ} {g : β → γ}
    (h : List.Forall₂ (fun a b => g b = f a) as bs) : bs.map g = as.map f := by
  induction h with
  | nil => rfl
  | cons hfirst _ ih => rw [List.map_cons, List.map_cons, hfirst, ih]

/-- Of related members both properties hold or neither. -/
theorem forall_mem_iff_of_forall₂ {P : α → Prop} {Q : β → Prop}
    (h : List.Forall₂ (fun a b => P a ↔ Q b) as bs) : (∀ a ∈ as, P a) ↔ ∀ b ∈ bs, Q b := by
  induction h with
  | nil => simp
  | cons hfirst _ ih => rw [List.forall_mem_cons, List.forall_mem_cons, hfirst, ih]

theorem mapM_eq_of_forall₂ {γ ε : Type} {f : α → Except ε γ} {g : β → Except ε γ}
    (h : List.Forall₂ (fun a b => g b = f a) as bs) : bs.mapM g = as.mapM f := by
  induction h with
  | nil => rfl
  | cons hfirst _ ih => rw [List.mapM_cons, List.mapM_cons, hfirst, ih]

theorem forall₂_map_map {f : ι → α} {g : ι → β} {list : List ι} (h : ∀ x ∈ list, R (f x) (g x)) :
    List.Forall₂ R (list.map f) (list.map g) :=
  List.forall₂_map_left_iff.mpr (List.forall₂_map_right_iff.mpr (List.forall₂_same.mpr h))

theorem exists_of_mem_zip (h : List.Forall₂ R as bs) {labels : List ι} {label : ι} {a : α}
    (hm : (label, a) ∈ labels.zip as) : ∃ b, (label, b) ∈ labels.zip bs ∧ R a b := by
  -- induction on the related lists; the labels go along with both
  induction h generalizing labels with
  | nil =>
    rw [List.zip_nil_right] at hm
    exact absurd hm List.not_mem_nil
  | cons hfirst _ ih =>
    cases labels with
    | nil => exact absurd hm List.not_mem_nil
    | cons first rest =>
      rw [List.zip_cons_cons] at hm ⊢
      rcases List.mem_cons.mp hm with heq | hm
      · cases heq
        exact ⟨_, List.mem_cons_self, hfirst⟩
      · obtain ⟨b, hb, hab⟩ := ih hm
        exact ⟨b, List.mem_cons_of_mem _ hb, hab⟩

end

/-! ## Lists of lists -/

section

variable {α β : Type} {f g : α → List β} {items : List α}

theorem sublist_flatMap (h : ∀ item ∈ items, (f item).Sublist (g item)) :
    (items.flatMap f).Sublist (items.flatMap g) := by
  induction items with
  | nil => exact .slnil
  | cons item rest ih =>
    rw [List.forall_mem_cons] at h
    exact h.1.append (ih h.2)

/-- Where nothing is left out on the whole, nothing is left out anywhere. -/
theorem flatMap_eq_iff_of_sublist (h : ∀ item ∈ items, (f item).Sublist (g item)) :
    items.flatMap g = items.flatMap f ↔ ∀ item ∈ items, g item = f item := by
  induction items with
  | nil => simp
  | cons item rest ih =>
    rw [List.forall_mem_cons] at h ⊢
    rw [List.flatMap_cons, List.flatMap_cons, ← ih h.2]
    constructor
    · intro heq
      -- neither part is longer than the other one, so both are as long
      have hlength := congrArg List.length heq
      have hfirst := h.1.length_le
      have hrest := (sublist_flatMap h.2).length_le
      simp only [List.length_append] at hlength
      have hitem : f item = g item := h.1.eq_of_length (by omega)
      rw [hitem, List.append_cancel_left_eq] at heq
      exact ⟨hitem.symm, heq⟩
    · rintro ⟨hitem, hmore⟩
      rw [hitem, hmore]

end

/-! ## Lists without duplicates -/

section

variable {α β : Type} [BEq β] [LawfulBEq β]

theorem eraseDups_concat (list : List β) (last : β) :
    (list ++ [last]).eraseDups =
      if list.contains last then list.eraseDups else list.eraseDups ++ [last] := by
  rw [List.eraseDups_append]
  by_cases hm : last ∈ list <;> simp [List.removeAll, List.eraseDups_cons, hm]

theorem nodup_eraseDups (list : List β) : list.eraseDups.Nodup := by
  induction list using List.reverseRecOn with
  | nil => simp
  | append_singleton list last ih =>
    rw [eraseDups_concat]
    split
    · exact ih
    · rename_i hlast
      refine List.nodup_append.mpr ⟨ih, by simp, ?_⟩
      rintro item hitem _ hother rfl
      rw [List.mem_singleton.mp hother, List.mem_eraseDups] at hitem
      exact hlast (by simpa using hitem)

/-- What stands twice behind a list may be left out before the list is put in front. -/
theorem eraseDups_append_right (front list : List β) :
    (front ++ list.eraseDups).eraseDups = (front ++ list).eraseDups := by
  -- induction on the last member: a duplicate of it in the list is one behind the front as well
  induction list using List.reverseRecOn with
  | nil => rfl
  | append_singleton list last ih =>
    rw [eraseDups_concat, ← List.append_assoc, eraseDups_concat, ← ih]
    by_cases hm : last ∈ list
    · simp [hm]
    · rw [if_neg (by simpa using hm), ← List.append_assoc, eraseDups_concat]
      simp [List.mem_eraseDups]

theorem eraseDups_append_left (list rest : List β) :
    (list.eraseDups ++ rest).eraseDups = (list ++ rest).eraseDups := by
  induction rest using List.reverseRecOn with
  | nil => simpa using eraseDups_append_right [] list
  | append_singleton rest last ih =>
    rw [← List.append_assoc, ← List.append_assoc, eraseDups_concat, eraseDups_concat, ih]
    simp [List.mem_eraseDups]

theorem eraseDups_flatMap_eraseDups (f : α → List β) (items : List α) :
    (items.flatMap fun item => (f item).eraseDups).eraseDups = (items.flatMap f).eraseDups := by
  induction items with
  | nil => rfl
  | cons item rest ih =>
    rw [List.flatMap_cons, List.flatMap_cons, eraseDups_append_left, ← eraseDups_append_right, ih,
      eraseDups_append_right]

end

/-! ## Results of computations -/

section

variable {ε ι α β : Type}

theorem exists_of_bind_eq_ok {result : Except ε α} {f : α → Except ε β} {value : β}
    (h : (result >>= f) = .ok value) : ∃ first, result = .ok first ∧ f first = .ok value := by
  cases result with
  | error => cases h
  | ok first => exact ⟨first, rfl, h⟩

theorem forall₂_of_mapM {items : List ι} {f : ι → Except ε α} {values : List α}
    (h : items.mapM f = .ok values) :
    List.Forall₂ (fun item value => f item = .ok value) items values := by
  induction items generalizing values with
  | nil =>
    cases h
    exact .nil
  | cons item rest ih =>
    rw [List.mapM_cons] at h
    obtain ⟨first, hfirst, h⟩ := exists_of_bind_eq_ok h
    obtain ⟨others, hothers, h⟩ := exists_of_bind_eq_ok h
    cases h
    exact .cons hfirst (ih hothers)

/-- What takes one item of a list after another, and may fail, is a pass over the list. -/
theorem eq_mapM {f : ι → Except ε α} {pass : List ι → Except ε (List α)} (nil : pass [] = pure [])
    (cons : ∀ item rest, pass (item :: rest) = return (← f item) :: (← pass rest))
    (items : List ι) : pass items = items.mapM f := by
  induction items with
  | nil => exact nil
  | cons item rest ih => rw [cons, ih, List.mapM_cons]

/-- What takes the values of pairs one after another, and keeps their keys, is a pass over the
pairs. -/
theorem eq_mapM_values {f : α → Except ε β} {pass : List (ι × α) → Except ε (List (ι × β))}
    (nil : pass [] = pure [])
    (cons : ∀ key value rest,
      pass ((key, value) :: rest) = return (key, ← f value) :: (← pass rest))
    (pairs : List (ι × α)) : pass pairs = pairs.mapM fun pair => return (pair.1, ← f pair.2) := by
  refine eq_mapM nil (fun pair rest => ?_) pairs
  rw [cons]
  cases f pair.2 <;> rfl

/-- Passes over pairs with the same keys agree if they agree on the values. -/
theorem mapM_values_eq_of_forall₂ {γ : Type} {f : α → Except ε γ} {g : β → Except ε γ}
    {pairs : List (ι × α)} {pairs' : List (ι × β)} (keys : pairs.map Prod.fst = pairs'.map Prod.fst)
    (values : List.Forall₂ (fun a b => g b = f a) (pairs.map Prod.snd) (pairs'.map Prod.snd)) :
    (pairs'.mapM fun pair => return (pair.1, ← g pair.2)) =
      pairs.mapM fun pair => return (pair.1, ← f pair.2) := by
  refine mapM_eq_of_forall₂ ?_
  have hkeys : List.Forall₂ Eq (pairs.map Prod.fst) (pairs'.map Prod.fst) :=
    List.forall₂_eq_eq_eq ▸ keys
  rw [List.forall₂_map_left_iff, List.forall₂_map_right_iff] at hkeys values
  exact hkeys.mp (fun pair pair' hkey hvalue => by rw [hkey, hvalue]) values

/-- The keys of pairs stay as they are when their values are computed. -/
theorem forall₂_of_mapM_values {pairs : List (ι × α)} {f : α → Except ε β} {values : List (ι × β)}
    (h : (pairs.mapM fun pair => return (pair.1, ← f pair.2)) = .ok values) :
    List.Forall₂ (fun value pair => value.1 = pair.1 ∧ f pair.2 = .ok value.2) values pairs := by
  refine (forall₂_of_mapM h).flip.imp fun value pair hpair => ?_
  obtain ⟨second, hsecond, hpair⟩ := exists_of_bind_eq_ok hpair
  cases hpair
  exact ⟨rfl, hsecond⟩

/-- A computation that has a value for each item has the list of the values. -/
theorem mapM_eq_map {items : List ι} {f : ι → Except ε α} {g : ι → α}
    (h : ∀ item ∈ items, f item = .ok (g item)) : items.mapM f = .ok (items.map g) := by
  induction items with
  | nil => rfl
  | cons item rest ih =>
    rw [List.mapM_cons, h item List.mem_cons_self,
      ih fun other ho => h other (List.mem_cons_of_mem _ ho)]
    rfl

/-- A computation that undoes a map has the items for values. -/
theorem mapM_map_eq {items : List ι} {f : α → Except ε ι} {g : ι → α}
    (h : ∀ item ∈ items, f (g item) = .ok item) : (items.map g).mapM f = .ok items := by
  rw [List.mapM_map]
  exact (mapM_eq_map h).trans (by rw [List.map_id'])

end

/-! ## Passes over lists -/

section

variable {m : Type → Type} [Monad m] [LawfulMonad m] {ι κ α β : Type} (visit : ι → m α)

/-- One pass over two lists is two passes. -/
theorem mapM_splitAt (l₁ l₂ : List ι) (k : List α → List α → m β) :
    (do let values ← (l₁ ++ l₂).mapM visit
        k (values.take l₁.length) (values.drop l₁.length)) =
      (do let values₁ ← l₁.mapM visit
          let values₂ ← l₂.mapM visit
          k values₁ values₂) := by
  -- induction on the first list; the first value goes to what comes after
  induction l₁ generalizing k with
  | nil => simp
  | cons item rest ih =>
    simp only [List.cons_append, List.mapM_cons, bind_assoc, pure_bind, List.length_cons,
      List.take_succ_cons, List.drop_succ_cons]
    congr 1
    funext value
    exact ih fun values₁ values₂ => k (value :: values₁) values₂

/-- A pass over items that keeps something of each is one over where they lead. -/
theorem mapM_zipWith (place : κ → ι) (f : κ → α → β) (items : List κ) :
    (items.mapM fun item => do return f item (← visit (place item))) =
      (do let values ← (items.map place).mapM visit
          return items.zipWith f values) := by
  induction items with
  | nil => simp
  | cons item rest ih =>
    rw [List.mapM_cons, ih]
    simp only [List.map_cons, List.mapM_cons, bind_assoc, pure_bind, List.zipWith_cons_cons]

end

end TypeGraph
