import Mathlib.Data.List.Nodup
import Mathlib.Data.List.Perm.Subperm
import Mathlib.Data.Nat.Find
import TypeGraph.Registry

/-!
# Names in a registry

A registry keeps three things in step: the identifier of each key, the definition of each
identifier, and which definitions are still placeholders. `Registry.Valid` says how they hang
together, and every operation keeps it.

Main results:

* `Registry.le_size_of_taken`: of the names with numbers no more are taken than there are
  definitions. So one of those that are tried is free.
* `Registry.freeIdentifier_not_mem`: a new identifier is the name of no definition.
* `Registry.Valid.register`, `Registry.Valid.complete`: registering and completing keep a registry
  valid.
* `Registry.Valid.key_unique`: an identifier belongs to one key.
-/

namespace TypeGraph.Registry

variable {κ : Type}

/-! ## Numbers -/

/-- An integer is told by its text. -/
theorem toString_injective {m n : Int} (h : toString m = toString n) : m = n := by
  -- of a natural number the digits give it back, and no digit is a sign
  have hnat {i j : Nat} (h : i.repr = j.repr) : i = j := by
    rw [← Nat.ofDigitChars_ten_toDigits (n := i), ← Nat.toList_repr, h, Nat.toList_repr,
      Nat.ofDigitChars_ten_toDigits]
  have hsign {i j : Nat} (h : i.repr = "-" ++ j.repr) : False := by
    have hmem : '-' ∈ i.repr.toList := by
      rw [h, String.toList_append]
      exact List.mem_append_left _ List.mem_cons_self
    rw [Nat.toList_repr] at hmem
    exact absurd (Nat.isDigit_of_mem_toDigits (by omega) (by omega) hmem) (by decide)
  rw [Int.toString_eq_repr, Int.toString_eq_repr, Int.repr_eq_if, Int.repr_eq_if] at h
  split at h <;> split at h
  · have := hnat h
    omega
  · exact (hsign h).elim
  · exact (hsign h.symm).elim
  · have := hnat ((String.append_right_inj "-").mp h)
    omega

/-- Without wrapping the numbers just go on. -/
theorem numberAt_false (attempt : Nat) : numberAt false attempt = attempt + 2 := by
  rw [numberAt, if_neg]
  exact fun h => Bool.false_ne_true h.1

/-- How many numbers there are from 2 to the greatest one of 32 bits, which is 2147483647. -/
def numbersInRange : Nat := 2147483646

/-- With wrapping the numbers behind the greatest one of 32 bits are less by what 32 bits hold. -/
theorem numberAt_true (attempt : Nat) :
    numberAt true attempt =
      if numbersInRange ≤ attempt ∧ attempt < UInt32.size then
        (attempt : Int) + 2 - (UInt32.size : Int)
      else (attempt : Int) + 2 := by
  have hrange : numbersInRange = 2147483646 := rfl
  have hunsigned : UInt32.size = 4294967296 := rfl
  have hsigned : Int32.size = 4294967296 := rfl
  by_cases hlt : attempt < UInt32.size
  · have hcast : ((attempt + 2 : Nat) : Int) = attempt + 2 := by omega
    rw [numberAt, if_pos ⟨rfl, hlt⟩, Int32.toInt_ofNat', hsigned, hcast, Int.bmod_def]
    split <;> split <;> omega
  · rw [numberAt, if_neg fun h => hlt h.2, if_neg fun h => hlt h.2]

theorem numberAt_injective {wraps : Bool} {i j : Nat} (h : numberAt wraps i = numberAt wraps j) :
    i = j := by
  cases wraps with
  | false =>
    rw [numberAt_false, numberAt_false] at h
    omega
  | true =>
    -- a number that wrapped has a sign
    have hsize : UInt32.size = 4294967296 := rfl
    rw [numberAt_true, numberAt_true] at h
    split at h <;> split at h <;> omega

theorem numberAt_of_lt (wraps : Bool) {attempt : Nat} (h : attempt < numbersInRange) :
    numberAt wraps attempt = attempt + 2 := by
  cases wraps with
  | false => exact numberAt_false attempt
  | true =>
    rw [numberAt_true, if_neg]
    exact fun hwrapped => Nat.not_le_of_lt h hwrapped.1

/-! ## Free names -/

/-- The text of an integer ends in the digits of a number. -/
theorem exists_toString_eq (z : Int) :
    ∃ (front : String) (n : Nat), toString z = front ++ n.repr := by
  rw [Int.toString_eq_repr, Int.repr_eq_if]
  split
  · exact ⟨"", z.toNat, (String.empty_append).symm⟩
  · exact ⟨"-", (-z).toNat, rfl⟩

/-- Only definitions take names with numbers: no reserved name ends in a digit. -/
theorem numbered_not_reserved (wraps : Bool) (base : String) (attempt : Nat) :
    numbered wraps base attempt ∉ reservedNames := by
  -- a numbered name ends in a digit, and no reserved one does
  have hreserved : ∀ name ∈ reservedNames, name.toList.getLast?.any Char.isDigit = false := by
    decide
  intro hmem
  obtain ⟨front, n, heq⟩ := exists_toString_eq (numberAt wraps attempt)
  obtain ⟨c, hc⟩ := Option.isSome_iff_exists.mp
    (List.getLast?_isSome.mpr (Nat.toDigits_ne_nil (b := 10) (n := n)))
  have hlast : (numbered wraps base attempt).toList.getLast? = some c := by
    rw [numbered, heq, String.toList_append, String.toList_append, Nat.toList_repr,
      List.getLast?_append, List.getLast?_append, hc]
    rfl
  have hdigit := Nat.isDigit_of_mem_toDigits (by omega) (by omega) (List.mem_of_getLast? hc)
  have hnone := hreserved _ hmem
  rw [hlast, Option.any_some, hdigit] at hnone
  exact Bool.false_ne_true hnone.symm

theorem numbered_injective {wraps : Bool} {base : String} {i j : Nat}
    (h : numbered wraps base i = numbered wraps base j) : i = j :=
  numberAt_injective (toString_injective ((String.append_right_inj base).mp h))

theorem isAvailable_eq_false_iff {registry : Registry κ} {name : String} :
    registry.isAvailable name = false ↔
      name ∈ reservedNames ∨ name ∈ registry.definitions.keys := by
  rw [isAvailable, Bool.and_eq_false_iff, Bool.not_eq_false', Bool.not_eq_false',
    List.contains_iff_mem, OrderedMap.contains_iff]

/-- The names with numbers that are taken are distinct definitions. -/
theorem le_size_of_taken {registry : Registry κ} {base : String} {count : Nat}
    (htaken : ∀ attempt < count,
      registry.isAvailable (numbered registry.wraps base attempt) = false) :
    count ≤ registry.definitions.size := by
  have hsubset :
      (List.range count).map (numbered registry.wraps base) ⊆ registry.definitions.keys := by
    intro name hmem
    obtain ⟨attempt, hattempt, rfl⟩ := List.mem_map.mp hmem
    have hbusy := htaken attempt (List.mem_range.mp hattempt)
    exact (isAvailable_eq_false_iff.mp hbusy).resolve_left (numbered_not_reserved _ _ _)
  have hnodup : ((List.range count).map (numbered registry.wraps base)).Nodup :=
    List.nodup_range.map fun _ _ => numbered_injective
  have hle := (List.subperm_of_subset hnodup hsubset).length_le
  rwa [List.length_map, List.length_range, OrderedMap.length_keys] at hle

theorem freeName_of_isAvailable {registry : Registry κ} {base : String}
    (hbase : registry.isAvailable base = true) : registry.freeName base = base := by
  rw [freeName, List.find?_cons_of_pos hbase]
  rfl

/-- The first of the names with numbers that is free, when the base and those before are taken. -/
theorem freeName_eq {registry : Registry κ} {base : String} {attempt : Nat}
    (hbase : registry.isAvailable base = false)
    (htaken : ∀ earlier < attempt,
      registry.isAvailable (numbered registry.wraps base earlier) = false)
    (hfree : registry.isAvailable (numbered registry.wraps base attempt) = true) :
    registry.freeName base = numbered registry.wraps base attempt := by
  have hreserved : 0 < reservedNames.length := by decide
  have hle := le_size_of_taken htaken
  have hfind : (List.range (reservedNames.length + registry.definitions.size)).find?
      (registry.isAvailable ∘ numbered registry.wraps base) = some attempt := by
    rw [List.find?_range_eq_some]
    refine ⟨hfree, List.mem_range.mpr (by omega), fun earlier hlt => ?_⟩
    rw [Function.comp_apply, htaken earlier hlt]
    rfl
  rw [freeName, List.find?_cons_of_neg (Bool.eq_false_iff.mp hbase), List.find?_map, hfind]
  rfl

/-- Of one attempt more than there are definitions, one finds a free name. -/
theorem exists_attempt (registry : Registry κ) (base : String) :
    ∃ attempt,
      (∀ earlier < attempt,
        registry.isAvailable (numbered registry.wraps base earlier) = false) ∧
      registry.isAvailable (numbered registry.wraps base attempt) = true := by
  have hexists : ∃ attempt,
      registry.isAvailable (numbered registry.wraps base attempt) = true := by
    by_contra hnone
    have htaken : ∀ attempt < registry.definitions.size + 1,
        registry.isAvailable (numbered registry.wraps base attempt) = false :=
      fun attempt _ => Bool.eq_false_iff.mpr fun hfree => hnone ⟨attempt, hfree⟩
    have hle := le_size_of_taken htaken
    omega
  refine ⟨Nat.find hexists, fun earlier hlt => ?_, Nat.find_spec hexists⟩
  exact Bool.eq_false_iff.mpr (Nat.find_min hexists hlt)

theorem isAvailable_freeName (registry : Registry κ) (base : String) :
    registry.isAvailable (registry.freeName base) = true := by
  cases hbase : registry.isAvailable base with
  | true => rwa [freeName_of_isAvailable hbase]
  | false =>
    obtain ⟨attempt, htaken, hfree⟩ := registry.exists_attempt base
    rwa [freeName_eq hbase htaken hfree]

theorem isAvailable_freeIdentifier (registry : Registry κ) (label : Option String) :
    registry.isAvailable (registry.freeIdentifier label) = true :=
  registry.isAvailable_freeName _

theorem freeIdentifier_not_mem (registry : Registry κ) (label : Option String) :
    registry.freeIdentifier label ∉ registry.definitions.keys := by
  intro hmem
  have havailable := registry.isAvailable_freeIdentifier label
  rw [isAvailable_eq_false_iff.mpr (.inr hmem)] at havailable
  exact Bool.false_ne_true havailable

theorem freeIdentifier_not_reserved (registry : Registry κ) (label : Option String) :
    registry.freeIdentifier label ∉ reservedNames := by
  intro hmem
  have havailable := registry.isAvailable_freeIdentifier label
  rw [isAvailable_eq_false_iff.mpr (.inl hmem)] at havailable
  exact Bool.false_ne_true havailable

/-! ## Completing -/

section

variable (registry : Registry κ) (identifier : String) (body : Node)

theorem mem_pending_complete {other : String} :
    other ∈ (registry.complete identifier body).pending ↔
      other ∈ registry.pending ∧ other ≠ identifier := by
  simp [complete]

theorem get?_complete (other : String) :
    (registry.complete identifier body).definitions.get? other =
      if other = identifier then
        (registry.definitions.get? identifier).map fun definition =>
          { definition with node := body }
      else registry.definitions.get? other :=
  OrderedMap.get?_modify ..

@[simp] theorem keys_complete :
    (registry.complete identifier body).definitions.keys = registry.definitions.keys :=
  OrderedMap.keys_modify ..

@[simp] theorem identifier?_complete [DecidableEq κ] (key : κ) :
    (registry.complete identifier body).identifier? key = registry.identifier? key := rfl

end

/-! ## Valid registries -/

/-- Identifiers and definitions are in step, and only definitions are pending. -/
structure Valid (registry : Registry κ) : Prop where
  identifiers : registry.definitions.keys = registry.identities.values
  pending : ∀ identifier ∈ registry.pending, identifier ∈ registry.definitions.keys

theorem Valid.start (wraps : Bool) : (Registry.start wraps : Registry κ).Valid :=
  ⟨rfl, fun _ h => absurd h List.not_mem_nil⟩

theorem Valid.size_eq {registry : Registry κ} (h : registry.Valid) :
    registry.definitions.size = registry.identities.size := by
  have hlength := congrArg List.length h.identifiers
  rwa [OrderedMap.length_keys, OrderedMap.values, List.length_map] at hlength

theorem Valid.complete {registry : Registry κ} (h : registry.Valid) (identifier : String)
    (body : Node) : (registry.complete identifier body).Valid := by
  constructor
  · rw [keys_complete, h.identifiers]
    rfl
  · intro other ho
    rw [keys_complete]
    exact h.pending other ((mem_pending_complete ..).mp ho).1

variable [DecidableEq κ]

namespace Valid

variable {registry : Registry κ} (h : registry.Valid)

include h

theorem mem_keys {key : κ} {identifier : String}
    (hi : registry.identifier? key = some identifier) : identifier ∈ registry.definitions.keys := by
  rw [h.identifiers]
  exact List.mem_map_of_mem (OrderedMap.get?_eq_some_iff.mp hi)

/-- An identifier belongs to one key. -/
theorem key_unique {key other : κ} {identifier : String}
    (hk : registry.identifier? key = some identifier)
    (ho : registry.identifier? other = some identifier) : key = other := by
  -- identifiers are the keys of the definitions, none of which comes twice
  have hnodup : (registry.identities.entries.map Prod.snd).Nodup := by
    have := registry.definitions.keys_nodup
    rwa [h.identifiers] at this
  have heq := List.inj_on_of_nodup_map hnodup (OrderedMap.get?_eq_some_iff.mp hk)
    (OrderedMap.get?_eq_some_iff.mp ho) rfl
  exact congrArg Prod.fst heq

/-- Every identifier belongs to a key. -/
theorem exists_key {identifier : String} (hi : identifier ∈ registry.definitions.keys) :
    ∃ key, registry.identifier? key = some identifier := by
  rw [h.identifiers] at hi
  obtain ⟨⟨key, _⟩, hmem, rfl⟩ := List.mem_map.mp hi
  exact ⟨key, OrderedMap.get?_eq_some_iff.mpr hmem⟩

/-- A key answers with a reference exactly if it has an identifier. -/
theorem lookup_isSome (key : κ) :
    (registry.lookup key).isSome = (registry.identifier? key).isSome := by
  unfold lookup
  cases hi : registry.identifier? key with
  | none => rfl
  | some identifier =>
    obtain ⟨definition, hd⟩ := OrderedMap.mem_keys_iff.mp (h.mem_keys hi)
    simp [DefinitionMap.reference?, hd]

theorem lookup_eq_none_iff {key : κ} :
    registry.lookup key = none ↔ registry.identifier? key = none := by
  rw [← Option.not_isSome_iff_eq_none, h.lookup_isSome key, Option.not_isSome_iff_eq_none]

end Valid

/-! ## Registering -/

section

variable (registry : Registry κ) (key : κ) (label : Option String)

theorem identifier?_register (other : κ) :
    (registry.register key label).2.identifier? other =
      if other = key then some (registry.freeIdentifier label)
      else registry.identifier? other :=
  OrderedMap.get?_insert ..

@[simp] theorem pending_register :
    (registry.register key label).2.pending =
      registry.freeIdentifier label :: registry.pending := rfl

theorem get?_register (identifier : String) :
    (registry.register key label).2.definitions.get? identifier =
      if identifier = registry.freeIdentifier label then some ⟨.unknown, label⟩
      else registry.definitions.get? identifier :=
  OrderedMap.get?_insert ..

theorem keys_register :
    (registry.register key label).2.definitions.keys =
      registry.definitions.keys ++ [registry.freeIdentifier label] := by
  have := registry.definitions.keys_insert (registry.freeIdentifier label) ⟨.unknown, label⟩
  rwa [if_neg (registry.freeIdentifier_not_mem label)] at this

theorem size_register :
    (registry.register key label).2.definitions.size = registry.definitions.size + 1 := by
  rw [← OrderedMap.length_keys, keys_register, List.length_append, OrderedMap.length_keys]
  rfl

variable {registry key}

/-- Registered keys stay in the order of their registration. -/
theorem identities_register (hnew : registry.identifier? key = none) :
    (registry.register key label).2.identities.keys = registry.identities.keys ++ [key] :=
  (OrderedMap.keys_insert ..).trans (if_neg (OrderedMap.get?_eq_none_iff.mp hnew))

theorem Valid.register (h : registry.Valid) (hnew : registry.identifier? key = none) :
    (registry.register key label).2.Valid := by
  -- the new identity comes last, like the new definition
  have hkey : key ∉ registry.identities.keys := by
    intro hmem
    obtain ⟨identifier, hi⟩ := OrderedMap.mem_keys_iff.mp hmem
    rw [identifier?, hi] at hnew
    exact Option.some_ne_none _ hnew
  constructor
  · rw [keys_register, h.identifiers]
    have := OrderedMap.entries_insert_of_not_mem (registry.freeIdentifier label) hkey
    simp only [Registry.register, OrderedMap.values, this, List.map_append, List.map_cons,
      List.map_nil]
  · intro identifier hi
    rw [keys_register, List.mem_append, List.mem_singleton]
    rcases List.mem_cons.mp hi with rfl | hi
    · exact Or.inr rfl
    · exact Or.inl (h.pending identifier hi)

end

/-! ## Reserving -/

/-- Reserving a registered key changes nothing; a new key is registered. -/
theorem reserve_eq (registry : Registry κ) (key : κ) (label : Option String) :
    registry.reserve key label =
      match registry.lookup key with
      | some reference => (reference, registry)
      | none => (.reference (registry.freeIdentifier label) label,
          (registry.register key label).2) := rfl

end TypeGraph.Registry
