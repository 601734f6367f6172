/-!
# Maps in order of first insertion

An `OrderedMap` is a finite map whose keys stay in the order in which they were first inserted.
Inserting a present key keeps its place and takes the new value; this is the rule behind the
properties of an object type, the definitions beside a type and the entries of a written schema.

The order is data of the type: `keys_insert` says what one insertion does to it, and `get?_insert`
what it does to the values.
-/

namespace TypeGraph

/-! ## Entries

The operations are first given on plain lists of entries, for the types that cannot hold an
`OrderedMap` of themselves. -/

namespace Entries

variable {κ α : Type} [DecidableEq κ]

/-- Gives `key` the value `value`: in place if the key is present, at the end otherwise. -/
def insert (key : κ) (value : α) : List (κ × α) → List (κ × α)
  | [] => [(key, value)]
  | (k, v) :: rest => if k = key then (k, value) :: rest else (k, v) :: insert key value rest

/-- The value of the first entry with the key. -/
def get? (key : κ) : List (κ × α) → Option α
  | [] => none
  | (k, v) :: rest => if k = key then some v else get? key rest

/-- The entries after inserting all pairs, from first to last. -/
def ofList (pairs : List (κ × α)) : List (κ × α) :=
  pairs.foldl (fun entries pair => insert pair.1 pair.2 entries) []

/-- Insertion keeps the keys and their order; a new key comes last. -/
theorem keys_insert (key : κ) (value : α) (entries : List (κ × α)) :
    (insert key value entries).map Prod.fst =
      if key ∈ entries.map Prod.fst then entries.map Prod.fst
      else entries.map Prod.fst ++ [key] := by
  induction entries with
  | nil => simp [insert]
  | cons entry rest ih =>
    obtain ⟨k, v⟩ := entry
    by_cases hk : k = key
    · simp [insert, hk]
    · have hk' : ¬ key = k := fun h => hk h.symm
      simp only [insert, hk, if_false, List.map_cons, ih, List.mem_cons, hk', false_or]
      split <;> simp

/-- A new key comes last with its value. -/
theorem insert_of_not_mem {key : κ} (value : α) {entries : List (κ × α)}
    (h : key ∉ entries.map Prod.fst) : insert key value entries = entries ++ [(key, value)] := by
  induction entries with
  | nil => rfl
  | cons entry rest ih =>
    simp only [List.map_cons, List.mem_cons, not_or] at h
    simp [insert, Ne.symm h.1, ih h.2]

/-- Insertion keeps keys distinct. -/
theorem nodup_insert (key : κ) (value : α) {entries : List (κ × α)}
    (h : (entries.map Prod.fst).Nodup) : ((insert key value entries).map Prod.fst).Nodup := by
  rw [keys_insert]
  split
  · exact h
  · -- a new key comes last and is none of the old ones
    rename_i hk
    exact List.nodup_append.2 ⟨h, by simp, fun k hk' other ho heq => hk (by simp_all)⟩

theorem nodup_ofList (pairs : List (κ × α)) : ((ofList pairs).map Prod.fst).Nodup := by
  suffices ∀ entries : List (κ × α), (entries.map Prod.fst).Nodup →
      ((pairs.foldl (fun es p => insert p.1 p.2 es) entries).map Prod.fst).Nodup from
    this [] (by simp)
  induction pairs with
  | nil => exact fun _ h => h
  | cons pair rest ih => exact fun entries h => ih _ (nodup_insert pair.1 pair.2 h)

/-- Inserting pairs with distinct keys keeps all of them. -/
theorem ofList_eq_self {pairs : List (κ × α)} (h : (pairs.map Prod.fst).Nodup) :
    ofList pairs = pairs := by
  -- generalized to what has been inserted so far
  suffices ∀ entries : List (κ × α), ((entries ++ pairs).map Prod.fst).Nodup →
      pairs.foldl (fun entries pair => insert pair.1 pair.2 entries) entries = entries ++ pairs from
    this [] h
  clear h
  induction pairs with
  | nil => exact fun entries _ => (List.append_nil entries).symm
  | cons pair rest ih =>
    intro entries h
    have hnew : pair.1 ∉ entries.map Prod.fst := by
      rw [List.map_append, List.map_cons] at h
      exact fun hm => (List.nodup_append.mp h).2.2 _ hm _ List.mem_cons_self rfl
    rw [List.foldl_cons, insert_of_not_mem pair.2 hnew, ih, List.append_assoc]
    · rfl
    · rwa [List.append_assoc]

/-- After an insertion the key has the new value and every other key its old one. -/
theorem get?_insert (key other : κ) (value : α) (entries : List (κ × α)) :
    get? other (insert key value entries) =
      if other = key then some value else get? other entries := by
  induction entries with
  | nil => simp [insert, get?, eq_comm]
  | cons entry rest ih =>
    obtain ⟨k, v⟩ := entry
    by_cases hk : k = key
    -- the entry is the one that is changed
    · by_cases ho : other = key
      · simp [insert, get?, hk, ho]
      · simp [insert, get?, hk, ho, Ne.symm ho]
    · by_cases ho : k = other
      · subst ho
        simp [insert, get?, hk]
      · simp [insert, get?, hk, ho, ih]

/-- With distinct keys, looking up is finding the entry. -/
theorem get?_eq_some_iff {key : κ} {value : α} {entries : List (κ × α)}
    (h : (entries.map Prod.fst).Nodup) :
    get? key entries = some value ↔ (key, value) ∈ entries := by
  induction entries with
  | nil => simp [get?]
  | cons entry rest ih =>
    obtain ⟨k, v⟩ := entry
    simp only [List.map_cons, List.nodup_cons] at h
    by_cases hk : k = key
    · subst hk
      have hrest : (k, value) ∉ rest := fun hm => h.1 (List.mem_map_of_mem hm)
      simp [get?, hrest, eq_comm]
    · simp [get?, hk, Ne.symm hk, ih h.2]

end Entries

/-! ## The map -/

/-- A finite map that remembers the order in which its keys were first inserted. -/
structure OrderedMap (κ α : Type) where
  entries : List (κ × α)
  nodup : (entries.map Prod.fst).Nodup

namespace OrderedMap

variable {κ α β : Type}

def empty : OrderedMap κ α := ⟨[], by simp⟩

instance : Inhabited (OrderedMap κ α) := ⟨empty⟩

def size (m : OrderedMap κ α) : Nat := m.entries.length

def isEmpty (m : OrderedMap κ α) : Bool := m.entries.isEmpty

def keys (m : OrderedMap κ α) : List κ := m.entries.map Prod.fst

def values (m : OrderedMap κ α) : List α := m.entries.map Prod.snd

/-- Changes every value and no key. -/
def mapValues (f : α → β) (m : OrderedMap κ α) : OrderedMap κ β where
  entries := m.entries.map fun entry => (entry.1, f entry.2)
  nodup := by
    rw [List.map_map]
    exact m.nodup

/-- Keeps the entries whose key passes the test, in their order. -/
def filterKeys (keep : κ → Bool) (m : OrderedMap κ α) : OrderedMap κ α where
  entries := m.entries.filter fun entry => keep entry.1
  nodup := m.nodup.sublist (List.filter_sublist.map Prod.fst)

theorem ext {m m' : OrderedMap κ α} (h : m.entries = m'.entries) : m = m' := by
  cases m
  cases m'
  cases h
  rfl

theorem length_keys (m : OrderedMap κ α) : m.keys.length = m.size := List.length_map _

theorem keys_nodup (m : OrderedMap κ α) : m.keys.Nodup := m.nodup

theorem keys_mapValues (m : OrderedMap κ α) (f : α → β) : (m.mapValues f).keys = m.keys := by
  simp [keys, mapValues]

theorem keys_filterKeys (m : OrderedMap κ α) (keep : κ → Bool) :
    (m.filterKeys keep).keys = m.keys.filter keep := by
  simp [keys, filterKeys, List.filter_map, Function.comp_def]

variable [DecidableEq κ]

def get? (m : OrderedMap κ α) (key : κ) : Option α := Entries.get? key m.entries

def contains (m : OrderedMap κ α) (key : κ) : Bool := (m.get? key).isSome

/-- Gives `key` the value `value`: in place if the key is present, at the end otherwise. -/
def insert (m : OrderedMap κ α) (key : κ) (value : α) : OrderedMap κ α where
  entries := Entries.insert key value m.entries
  nodup := Entries.nodup_insert key value m.nodup

/-- Changes the value of `key`; a map without the key stays as it is. -/
def modify (m : OrderedMap κ α) (key : κ) (f : α → α) : OrderedMap κ α :=
  match m.get? key with
  | some value => m.insert key (f value)
  | none => m

/-- The map after inserting all pairs, from first to last. -/
def ofList (pairs : List (κ × α)) : OrderedMap κ α where
  entries := Entries.ofList pairs
  nodup := Entries.nodup_ofList pairs

/-! ## Lookup -/

theorem get?_eq_some_iff {m : OrderedMap κ α} {key : κ} {value : α} :
    m.get? key = some value ↔ (key, value) ∈ m.entries :=
  Entries.get?_eq_some_iff m.nodup

theorem mem_keys_iff {m : OrderedMap κ α} {key : κ} :
    key ∈ m.keys ↔ ∃ value, m.get? key = some value := by
  simp [keys, get?_eq_some_iff]

theorem get?_eq_none_iff {m : OrderedMap κ α} {key : κ} : m.get? key = none ↔ key ∉ m.keys := by
  rw [mem_keys_iff, ← Option.isSome_iff_exists, Option.not_isSome_iff_eq_none]

theorem contains_iff {m : OrderedMap κ α} {key : κ} : m.contains key = true ↔ key ∈ m.keys := by
  rw [contains, Option.isSome_iff_exists, mem_keys_iff]

/-! ## Changes -/

theorem keys_insert (m : OrderedMap κ α) (key : κ) (value : α) :
    (m.insert key value).keys = if key ∈ m.keys then m.keys else m.keys ++ [key] :=
  Entries.keys_insert key value m.entries

theorem entries_insert_of_not_mem {m : OrderedMap κ α} {key : κ} (value : α)
    (h : key ∉ m.keys) : (m.insert key value).entries = m.entries ++ [(key, value)] :=
  Entries.insert_of_not_mem value h

theorem get?_insert (m : OrderedMap κ α) (key other : κ) (value : α) :
    (m.insert key value).get? other = if other = key then some value else m.get? other :=
  Entries.get?_insert key other value m.entries

theorem get?_modify (m : OrderedMap κ α) (key other : κ) (f : α → α) :
    (m.modify key f).get? other = if other = key then (m.get? key).map f else m.get? other := by
  unfold modify
  split
  · rename_i value hv
    rw [get?_insert, hv]
    rfl
  · rename_i hn
    split
    · rename_i ho
      rw [ho, hn]
      rfl
    · rfl

theorem keys_modify (m : OrderedMap κ α) (key : κ) (f : α → α) :
    (m.modify key f).keys = m.keys := by
  unfold modify
  split
  · rename_i value hv
    rw [keys_insert, if_pos (mem_keys_iff.2 ⟨value, hv⟩)]
  · rfl

theorem get?_mapValues (m : OrderedMap κ α) (f : α → β) (key : κ) :
    (m.mapValues f).get? key = (m.get? key).map f := by
  apply Option.ext
  intro value
  rw [get?_eq_some_iff, Option.map_eq_some_iff]
  simp only [mapValues, List.mem_map, Prod.exists, Prod.mk.injEq, get?_eq_some_iff]
  constructor
  · rintro ⟨_, v, hv, rfl, rfl⟩
    exact ⟨v, hv, rfl⟩
  · rintro ⟨v, hv, rfl⟩
    exact ⟨key, v, hv, rfl, rfl⟩

theorem get?_filterKeys (m : OrderedMap κ α) (keep : κ → Bool) (key : κ) :
    (m.filterKeys keep).get? key = if keep key then m.get? key else none := by
  apply Option.ext
  intro value
  rw [get?_eq_some_iff, filterKeys, List.mem_filter, ← get?_eq_some_iff]
  split
  · rename_i hk
    simp [hk]
  · rename_i hk
    simp [hk]

end OrderedMap

end TypeGraph
