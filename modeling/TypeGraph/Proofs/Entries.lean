import Mathlib.Data.List.Forall2
import TypeGraph.OrderedMap

/-!
# Entries

What lookups and insertions do to entries whose values are changed, and to two lists of entries side
by side.
-/

namespace TypeGraph.Entries

variable {α β : Type} {R : α → β → Prop}

/-! ## Lookups -/

theorem mem_of_get? {key : String} {value : α} {entries : List (String × α)}
    (h : get? key entries = some value) : (key, value) ∈ entries := by
  induction entries with
  | nil => cases h
  | cons entry rest ih =>
    rw [get?] at h
    split at h
    · rename_i heq
      cases h
      exact heq ▸ List.mem_cons_self
    · exact List.mem_cons_of_mem _ (ih h)

theorem get?_eq_none_iff {key : String} {entries : List (String × α)} :
    get? key entries = none ↔ key ∉ entries.map Prod.fst := by
  induction entries with
  | nil => simp [get?]
  | cons entry rest ih =>
    rw [get?, List.map_cons, List.mem_cons, not_or, ← ih]
    split
    · rename_i heq
      simp [heq]
    · rename_i hne
      simp [Ne.symm hne]

theorem get?_map (f : α → β) (key : String) (entries : List (String × α)) :
    get? key (entries.map fun entry => (entry.1, f entry.2)) = (get? key entries).map f := by
  induction entries with
  | nil => rfl
  | cons entry rest ih =>
    rw [List.map_cons, get?, get?]
    split
    · rfl
    · exact ih

theorem get?_append (key : String) (entries others : List (String × α)) :
    get? key (entries ++ others) = (get? key entries).or (get? key others) := by
  induction entries with
  | nil => rfl
  | cons entry rest ih =>
    rw [List.cons_append, get?, get?]
    split
    · rfl
    · exact ih

/-- In two lists of entries side by side, a name has related values. -/
theorem exists_get?_of_forall₂ {entries : List (String × α)} {entries' : List (String × β)}
    (h : List.Forall₂ (fun entry entry' => entry.1 = entry'.1 ∧ R entry.2 entry'.2)
      entries entries')
    {key : String} {value : α} (hvalue : get? key entries = some value) :
    ∃ value', get? key entries' = some value' ∧ R value value' := by
  induction h with
  | nil => cases hvalue
  | cons hfirst _ ih =>
    rw [get?] at hvalue ⊢
    rw [← hfirst.1]
    split at hvalue
    · rename_i heq
      cases hvalue
      exact ⟨_, if_pos heq, hfirst.2⟩
    · rename_i hne
      rw [if_neg hne]
      exact ih hvalue

/-- Two lists of entries with the same keys go side by side as their values do. -/
theorem forall₂_of_values {entries : List (String × α)} {entries' : List (String × β)}
    (hkeys : entries.map Prod.fst = entries'.map Prod.fst)
    (hvalues : List.Forall₂ R (entries.map Prod.snd) (entries'.map Prod.snd)) :
    List.Forall₂ (fun entry entry' => entry.1 = entry'.1 ∧ R entry.2 entry'.2) entries
      entries' := by
  rw [← List.forall₂_eq_eq_eq, List.forall₂_map_left_iff, List.forall₂_map_right_iff] at hkeys
  rw [List.forall₂_map_left_iff, List.forall₂_map_right_iff] at hvalues
  exact hkeys.mp (fun _ _ hkey hvalue => ⟨hkey, hvalue⟩) hvalues

/-! ## Insertions -/

theorem mem_insert {key : String} {value : α} {entries : List (String × α)} {entry : String × α}
    (h : entry ∈ insert key value entries) : entry = (key, value) ∨ entry ∈ entries := by
  induction entries with
  | nil => exact .inl (List.mem_singleton.mp h)
  | cons first rest ih =>
    rw [insert] at h
    split at h
    · rename_i heq
      rw [heq] at h
      exact (List.mem_cons.mp h).imp_right (List.mem_cons_of_mem _)
    · rcases List.mem_cons.mp h with rfl | h
      · exact .inr List.mem_cons_self
      · exact (ih h).imp_right (List.mem_cons_of_mem _)

theorem mem_ofList {pairs : List (String × α)} {pair : String × α} (h : pair ∈ ofList pairs) :
    pair ∈ pairs := by
  -- generalized to what has been inserted so far
  suffices ∀ entries : List (String × α),
      pair ∈ pairs.foldl (fun entries pair => insert pair.1 pair.2 entries) entries →
        pair ∈ entries ∨ pair ∈ pairs from (this [] h).resolve_left List.not_mem_nil
  clear h
  induction pairs with
  | nil => exact fun entries h => .inl h
  | cons first rest ih =>
    intro entries h
    rcases ih _ h with h | h
    · rcases mem_insert h with rfl | h
      · exact .inr List.mem_cons_self
      · exact .inl h
    · exact .inr (List.mem_cons_of_mem _ h)

theorem mem_keys_ofList {pairs : List (String × α)} {key : String} :
    key ∈ (ofList pairs).map Prod.fst ↔ key ∈ pairs.map Prod.fst := by
  -- generalized to what has been inserted so far
  suffices ∀ entries : List (String × α),
      key ∈ (pairs.foldl (fun entries pair => insert pair.1 pair.2 entries) entries).map Prod.fst ↔
        key ∈ entries.map Prod.fst ∨ key ∈ pairs.map Prod.fst from
    (this []).trans (or_iff_right List.not_mem_nil)
  induction pairs with
  | nil => simp
  | cons pair rest ih =>
    intro entries
    rw [List.foldl_cons, ih, keys_insert, List.map_cons, List.mem_cons]
    split
    · rename_i hpresent
      rw [or_left_comm]
      exact (or_iff_right_of_imp fun heq => .inl (heq ▸ hpresent)).symm
    · rw [List.mem_append, List.mem_singleton, or_assoc]

theorem forall₂_insert {entries : List (String × α)} {entries' : List (String × β)}
    (h : List.Forall₂ (fun entry entry' => entry.1 = entry'.1 ∧ R entry.2 entry'.2)
      entries entries')
    {key : String} {value : α} {value' : β} (hvalue : R value value') :
    List.Forall₂ (fun entry entry' => entry.1 = entry'.1 ∧ R entry.2 entry'.2)
      (insert key value entries) (insert key value' entries') := by
  induction h with
  | nil => exact .cons ⟨rfl, hvalue⟩ .nil
  | @cons entry entry' rest rest' hfirst hrest ih =>
    obtain ⟨k, v⟩ := entry
    obtain ⟨k', v'⟩ := entry'
    obtain ⟨rfl, hv⟩ := hfirst
    unfold insert
    split
    · exact .cons ⟨rfl, hvalue⟩ hrest
    · exact .cons ⟨rfl, hv⟩ ih

/-- Related pairs make related entries. -/
theorem forall₂_ofList {pairs : List (String × α)} {pairs' : List (String × β)}
    (h : List.Forall₂ (fun entry entry' => entry.1 = entry'.1 ∧ R entry.2 entry'.2) pairs pairs') :
    List.Forall₂ (fun entry entry' => entry.1 = entry'.1 ∧ R entry.2 entry'.2)
      (ofList pairs) (ofList pairs') := by
  -- generalized to what has been inserted so far
  suffices ∀ entries entries', List.Forall₂
      (fun entry entry' => entry.1 = entry'.1 ∧ R entry.2 entry'.2) entries entries' →
      List.Forall₂ (fun entry entry' => entry.1 = entry'.1 ∧ R entry.2 entry'.2)
        (pairs.foldl (fun entries pair => insert pair.1 pair.2 entries) entries)
        (pairs'.foldl (fun entries pair => insert pair.1 pair.2 entries) entries') from
    this [] [] .nil
  induction h with
  | nil => exact fun _ _ h => h
  | cons hpair _ ih =>
    intro entries entries' hentries
    rw [List.foldl_cons, List.foldl_cons, ← hpair.1]
    exact ih _ _ (forall₂_insert hentries hpair.2)

/-- Values may be changed before or after the insertions. -/
theorem ofList_map (f : α → β) (pairs : List (String × α)) :
    ofList (pairs.map fun pair => (pair.1, f pair.2)) =
      (ofList pairs).map fun pair => (pair.1, f pair.2) := by
  have hpairs : List.Forall₂ (fun pair pair' => pair.1 = pair'.1 ∧ f pair.2 = pair'.2) pairs
      (pairs.map fun pair => (pair.1, f pair.2)) :=
    List.forall₂_map_right_iff.mpr (List.forall₂_same.mpr fun _ _ => ⟨rfl, rfl⟩)
  have hentries := forall₂_ofList (R := fun a b => f a = b) hpairs
  have hmap : List.Forall₂ Eq ((ofList pairs).map fun pair => (pair.1, f pair.2))
      (ofList (pairs.map fun pair => (pair.1, f pair.2))) :=
    List.forall₂_map_left_iff.mpr (hentries.imp fun _ _ h => Prod.ext h.1 h.2)
  exact (List.forall₂_eq_eq_eq ▸ hmap).symm

end TypeGraph.Entries
