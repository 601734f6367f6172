import TypeGraph.Proofs.Json.Text

/-!
# Texts of literals tell literals apart

All literals share one space of texts, without a mark for the kind of the value. Two of them have
the same text exactly if they are equal, so zero has one text for both of its signs and every other
text belongs to one literal. Not-a-number equals nothing, itself included, but its text is still
that of no other kind.

A text is one token, and what the token is read as is the literal in canonical form: that is why
equal texts come from equal literals. The converse is that nothing is written which the canonical
form leaves out.

Main result: `Literal.text_identifies`.
-/

namespace TypeGraph.Literal

open Source

/-! ## The same text from equal literals -/

/-- The sign of zero is not written. -/
theorem numberText_canonical (x : Binary64) : numberText x.canonical = numberText x := by
  unfold Binary64.canonical
  split
  · rename_i hzero
    have hordinal : x.ordinal = 0 := eq_of_beq hzero
    have hnan : x.isNaN = false := by
      rw [Binary64.isNaN, hordinal]
      exact decide_eq_false (Nat.not_lt_zero _)
    have hinfinite : x.isInfinite = false := by
      rw [Binary64.isInfinite, hordinal]
      rfl
    rw [numberText, numberText, hnan, hinfinite]
    -- the layout of source text writes a zero of either sign with the same numeral
    have hunsigned : numberLayout.signedZero = false := rfl
    have hnumeral : numberLayout.numeral .zero = numberLayout.numeral x := by
      rw [Layout.numeral, Layout.numeral, if_pos (show Binary64.zero.isZero = true from rfl),
        if_pos hzero, hunsigned, Bool.and_false, Bool.and_false]
    exact congrArg Numeral.text hnumeral
  · rfl

theorem text_canonical (value : Literal) : value.canonical.text = value.text := by
  cases value with
  | number x => exact numberText_canonical x
  | _ => rfl

/-! ## Equal literals from the same text -/

/-- A text is one token, so one text is one token. -/
theorem token_eq_of_text_eq {a b : Literal} (h : a.text = b.text) : a.token = b.token := by
  have htokens : a.token :: tokens [] = b.token :: tokens [] := by
    rw [← tokens_text a ends_nil, ← tokens_text b ends_nil, h]
  exact (List.cons.inj htokens).1

/-- Literals have the same text if and only if they are equal, unless one of them is
not-a-number. -/
theorem text_eq_iff {a b : Literal} (ha : a.isNaN = false) (hb : b.isNaN = false) :
    a.text = b.text ↔ a.beq b = true := by
  rw [← canonical_eq_iff ha hb]
  constructor
  · intro h
    have hread : some a.canonical = some b.canonical := by
      rw [← ofToken?_token ha, ← ofToken?_token hb, token_eq_of_text_eq h]
    exact Option.some.inj hread
  · intro h
    rw [← text_canonical a, ← text_canonical b, h]

/-! ## Kinds -/

theorem kindName_canonical (value : Literal) : value.canonical.kindName = value.kindName := by
  cases value <;> rfl

/-- The token of a literal is read as a literal of its kind, also if it is not-a-number. -/
theorem exists_ofToken?_token (value : Literal) :
    ∃ read, ofToken? value.token = some read ∧ read.kindName = value.kindName := by
  cases hnan : value.isNaN with
  | false => exact ⟨value.canonical, ofToken?_token hnan, kindName_canonical value⟩
  | true =>
    cases value with
    | number x =>
      have htext : numberText x = "NaN" := if_pos hnan
      refine ⟨number Binary64.nan.canonical, ?_, rfl⟩
      show ofWord? (numberText x) = _
      rw [htext]
      rfl
    | _ => cases hnan

/-- Literals of different kinds have different texts. -/
theorem kindName_eq_of_text_eq {a b : Literal} (h : a.text = b.text) : a.kindName = b.kindName := by
  obtain ⟨read, hread, hkind⟩ := exists_ofToken?_token a
  obtain ⟨read', hread', hkind'⟩ := exists_ofToken?_token b
  rw [token_eq_of_text_eq h, hread'] at hread
  rw [← hkind, ← hkind', Option.some.inj hread]

/-! ## All literals -/

/-- Texts tell literals apart: they are the same exactly for literals that are equal, and never for
literals of different kinds. The text of a string decodes to the string, and that of a big integer
is its decimal text before an `n`. -/
theorem text_identifies (a b : Literal) :
    (a.isNaN = false → b.isNaN = false → (a.text = b.text ↔ a.beq b = true)) ∧
      (a.kindName ≠ b.kindName → a.text ≠ b.text) ∧
      (∀ text, a = string text → Json.ofText? a.text = some (.string text)) ∧
      ∀ n, a = bigint n → ∃ decimal, a.text = decimal ++ "n" ∧ Integer.parse? decimal = some n := by
  refine ⟨text_eq_iff, mt kindName_eq_of_text_eq, ?_, ?_⟩
  · rintro text rfl
    exact (Json.Regular.string text).ofText?_text
  · rintro n rfl
    exact ⟨Integer.text n, rfl, Integer.parse?_text n⟩

/-- The two zeros share a text that is not the text of the big integer zero. -/
theorem text_zeros :
    (number .zero).isNaN = false ∧ (number { Binary64.zero with negative := true }).isNaN = false ∧
      (number .zero).text = (number { Binary64.zero with negative := true }).text ∧
      (number .zero).kindName ≠ (bigint 0).kindName ∧ (number .zero).text ≠ (bigint 0).text := by
  obtain ⟨hequal, -⟩ :=
    text_identifies (number .zero) (number { Binary64.zero with negative := true })
  obtain ⟨-, hkinds, -⟩ := text_identifies (number .zero) (bigint 0)
  have hnan : (number .zero).isNaN = false := by decide
  have hnan' : (number { Binary64.zero with negative := true }).isNaN = false := by decide
  have hkind : (number .zero).kindName ≠ (bigint 0).kindName := by decide
  exact ⟨hnan, hnan', (hequal hnan hnan').mpr (by decide), hkind, hkinds hkind⟩

end TypeGraph.Literal
