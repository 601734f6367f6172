import Mathlib.Order.FixedPoints
import TypeGraph.Json.Basic
import TypeGraph.OrderedMap

/-!
# JSON values and relations on them

What two readings of JSON values share: the type of a value, its parts, and when two values are the
same. Each reading is the least relation that its rules allow, and is used by way of two facts: it
is what the rules make of it (`Least.lfp_iff`), and what passes through the rules holds of it
(`Least.induction`).
-/

namespace TypeGraph

namespace Json

/-! ## Types and parts -/

/-- The type of a value, as schemas name it. What cannot be decoded has none. -/
def typeName? : Json → Option String
  | null => some "null"
  | bool _ => some "boolean"
  | number _ => some "number"
  | string _ => some "string"
  | array _ => some "array"
  | object _ => some "object"
  | unpaired => none

/-- The elements of an array; other values have none. -/
def elements : Json → List Json
  | array elements => elements
  | _ => []

/-- The entries of an object; other values have none. -/
def entries : Json → List (String × Json)
  | object entries => entries
  | _ => []

@[simp] theorem elements_array (parts : List Json) : (array parts).elements = parts := rfl

@[simp] theorem entries_object (parts : List (String × Json)) : (object parts).entries = parts :=
  rfl

theorem exists_array {value : Json} {P : List Json → Prop} :
    (∃ elements, value = array elements ∧ P elements) ↔
      value.typeName? = some "array" ∧ P value.elements := by
  cases value <;> simp [typeName?, elements]

theorem exists_object {value : Json} {P : List (String × Json) → Prop} :
    (∃ entries, value = object entries ∧ P entries) ↔
      value.typeName? = some "object" ∧ P value.entries := by
  cases value <;> simp [typeName?, entries]

/-! ## Sameness -/

mutual

/-- Whether two values are the same: numbers by their binary values, objects by the values of their
names in any order. -/
def same : Json → Json → Bool
  | null, null => true
  | bool value, bool other => value == other
  | number numeral, number other => numeral.nearest.beq other.nearest
  | string text, string other => text == other
  | array elements, array others => sameAll elements others
  | object entries, object others =>
    sameEntries entries others && others.all fun entry => (Entries.get? entry.1 entries).isSome
  | _, _ => false

def sameAll : List Json → List Json → Bool
  | [], [] => true
  | element :: rest, other :: others => same element other && sameAll rest others
  | _, _ => false

/-- Whether each entry has the same value among the others. -/
def sameEntries : List (String × Json) → List (String × Json) → Bool
  | [], _ => true
  | (name, value) :: rest, others =>
    (match Entries.get? name others with
      | some other => same value other
      | none => false) && sameEntries rest others

end

end Json

/-! ## Least relations -/

namespace Least

variable {α β : Type} {rules : (α → β → Prop) →o (α → β → Prop)} {a : α} {b : β}

/-- What the rules allow of the least relation is in it, and nothing else is. -/
theorem lfp_iff : rules.lfp a b ↔ rules rules.lfp a b := by
  have hfix := congrFun (congrFun rules.map_lfp a) b
  rw [hfix]

/-- What holds behind every rule holds of the least relation. The premises of a rule may be used as
members of the relation too. -/
theorem induction {motive : α → β → Prop}
    (step : ∀ a b, rules (fun a b => rules.lfp a b ∧ motive a b) a b → motive a b)
    (h : rules.lfp a b) : motive a b := by
  have hclosed : rules (fun a b => rules.lfp a b ∧ motive a b) ≤
      fun a b => rules.lfp a b ∧ motive a b := by
    intro a b hrules
    have hpremises : (fun a b => rules.lfp a b ∧ motive a b) ≤ rules.lfp := fun _ _ h => h.1
    exact ⟨lfp_iff.mpr (rules.monotone hpremises a b hrules), step a b hrules⟩
  exact (rules.lfp_le hclosed a b h).2

end Least

end TypeGraph
