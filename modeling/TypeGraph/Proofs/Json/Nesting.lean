import TypeGraph.Json.Decode
import TypeGraph.Proofs.Json.Text

/-!
# Nesting of documents

How many brackets are open at once in a document, which is what a reader limits. A value with named
fields is deeper than each of its fields.

Main results:

* `Json.Regular.decodable`: a document can be decoded whole where it is not nested too deep.
* `Json.nesting_lt_of_record`: fields are nested less than what they are fields of.
-/

namespace TypeGraph.Json

mutual

/-- The greatest number of brackets that are open at once. -/
def nesting : Json → Nat
  | array elements => nestingOfAll elements + 1
  | object entries => nestingOfEntries entries + 1
  | _ => 0

def nestingOfAll : List Json → Nat
  | [] => 0
  | element :: rest => max (nesting element) (nestingOfAll rest)

def nestingOfEntries : List (String × Json) → Nat
  | [] => 0
  | (_, value) :: rest => max (nesting value) (nestingOfEntries rest)

end

theorem nestingOfAll_le_iff {elements : List Json} {n : Nat} :
    nestingOfAll elements ≤ n ↔ ∀ element ∈ elements, element.nesting ≤ n := by
  induction elements with
  | nil => simp [nestingOfAll]
  | cons element rest ih => rw [nestingOfAll, Nat.max_le, ih, List.forall_mem_cons]

theorem nestingOfEntries_le_iff {entries : List (String × Json)} {n : Nat} :
    nestingOfEntries entries ≤ n ↔ ∀ entry ∈ entries, entry.2.nesting ≤ n := by
  induction entries with
  | nil => simp [nestingOfEntries]
  | cons entry rest ih => rw [nestingOfEntries, Nat.max_le, ih, List.forall_mem_cons]

theorem nesting_array_le {elements : List Json} {n : Nat} (hpos : 0 < n)
    (h : ∀ element ∈ elements, element.nesting < n) : (array elements).nesting ≤ n := by
  have helements := nestingOfAll_le_iff.mpr fun element he => Nat.le_sub_one_of_lt (h element he)
  rw [nesting]
  omega

theorem nesting_object_le {entries : List (String × Json)} {n : Nat} (hpos : 0 < n)
    (h : ∀ entry ∈ entries, entry.2.nesting < n) : (object entries).nesting ≤ n := by
  have hentries := nestingOfEntries_le_iff.mpr fun entry he => Nat.le_sub_one_of_lt (h entry he)
  rw [nesting]
  omega

theorem nesting_lt_of_mem_elements {element : Json} {elements : List Json}
    (h : element ∈ elements) : element.nesting < (array elements).nesting := by
  rw [nesting]
  exact Nat.lt_succ_of_le (nestingOfAll_le_iff.mp (Nat.le_refl _) element h)

theorem nesting_lt_of_mem_entries {key : String} {value : Json} {entries : List (String × Json)}
    (h : (key, value) ∈ entries) : value.nesting < (object entries).nesting := by
  rw [nesting]
  exact Nat.lt_succ_of_le (nestingOfEntries_le_iff.mp (Nat.le_refl _) (key, value) h)

/-! ## Decodable documents -/

theorem allDecodable_eq (depth : Nat) (elements : List Json) :
    allDecodable depth elements = elements.all (decodable depth) := by
  induction elements with
  | nil => rfl
  | cons element rest ih => rw [allDecodable, List.all_cons, ih]

theorem entriesDecodable_eq (depth : Nat) (entries : List (String × Json)) :
    entriesDecodable depth entries = entries.all fun entry => entry.2.decodable depth := by
  induction entries with
  | nil => rfl
  | cons entry rest ih => rw [entriesDecodable, List.all_cons, ih]

/-- Where a document is decoded, it is not nested too deep. -/
theorem nesting_le_of_decodable :
    ∀ (json : Json) {depth : Nat}, json.decodable depth = true → json.nesting ≤ depth
  | array elements, depth, h => by
    rw [decodable, Bool.and_eq_true, decide_eq_true_eq, allDecodable_eq, List.all_eq_true] at h
    refine nesting_array_le h.1 fun element he => ?_
    have := nesting_le_of_decodable element (h.2 element he)
    omega
  | object entries, depth, h => by
    rw [decodable, Bool.and_eq_true, decide_eq_true_eq, entriesDecodable_eq, List.all_eq_true] at h
    refine nesting_object_le h.1 fun entry he => ?_
    have := nesting_le_of_decodable entry.2 (h.2 entry he)
    omega
  | null, _, _ | bool _, _, _ | number _, _, _ | string _, _, _ | unpaired, _, _ => Nat.zero_le _
  termination_by json => sizeOf json
  decreasing_by
    all_goals simp only [array.sizeOf_spec, object.sizeOf_spec]
    · have := List.sizeOf_lt_of_mem he; omega
    · have := sizeOf_snd_lt_of_mem he; omega

/-- A document can be decoded whole where it is not nested too deep. -/
theorem Regular.decodable {json : Json} (h : json.Regular) {depth : Nat}
    (hdepth : json.nesting ≤ depth) : json.decodable depth = true := by
  induction h generalizing depth with
  | null | bool | string => rfl
  | number _ valued => rw [Json.decodable, valued]
  | array _ ih =>
    rw [nesting] at hdepth
    rw [Json.decodable, Bool.and_eq_true, decide_eq_true_eq, allDecodable_eq, List.all_eq_true]
    have helements := nestingOfAll_le_iff.mp (Nat.le_sub_of_add_le hdepth)
    exact ⟨by omega, fun element he => ih element he (helements element he)⟩
  | object _ ih =>
    rw [nesting] at hdepth
    rw [Json.decodable, Bool.and_eq_true, decide_eq_true_eq, entriesDecodable_eq, List.all_eq_true]
    have hentries := nestingOfEntries_le_iff.mp (Nat.le_sub_of_add_le hdepth)
    exact ⟨by omega, fun entry he => ih entry he (hentries entry he)⟩

/-! ## Fields -/

theorem exists_of_mem_occurrences {key : String} {entries : List (String × Json)}
    {part : Part (object entries)} (h : part ∈ occurrences key entries) :
    ∃ name, (name, part.1) ∈ entries := by
  obtain ⟨⟨⟨name, value⟩, hmem⟩, -, hpart⟩ := List.mem_filterMap.mp h
  dsimp only at hpart
  split at hpart
  · cases hpart
    exact ⟨name, hmem⟩
  · cases hpart

/-- Fields are nested less than what they are fields of. -/
theorem nesting_lt_of_record {fields : List String} {json : Json}
    {parts : List (Option (Part json))} (h : json.record fields = .ok parts) {part : Part json}
    (hpart : some part ∈ parts) : part.1.nesting < json.nesting := by
  cases json with
  | object entries =>
    -- the field is an entry that has its name
    obtain ⟨field, -, hentry⟩ := exists_of_mem_forall₂ (forall₂_of_mapM h).flip hpart
    have hoccurs : part ∈ occurrences field entries := by
      unfold entry at hentry
      split at hentry
      · cases hentry
      · rename_i value heq
        cases hentry
        rw [heq]
        exact List.mem_cons_self
      · cases hentry
    obtain ⟨name, hmem⟩ := exists_of_mem_occurrences hoccurs
    exact nesting_lt_of_mem_entries hmem
  | array elements =>
    rw [record] at h
    split at h
    · cases h
    · -- the field is the element at its place
      cases h
      obtain ⟨i, -, hi⟩ := List.mem_map.mp hpart
      obtain ⟨⟨element, hmem⟩, -, rfl⟩ := List.mem_map.mp (List.mem_of_getElem? hi)
      exact nesting_lt_of_mem_elements hmem
  | _ => cases h

end TypeGraph.Json
