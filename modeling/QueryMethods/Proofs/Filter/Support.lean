/-
What each dialect takes. A comparison is taken if its operand fits, unless the dialect asks a list for
items and there are none, or has no form for the comparison: one has no patterns at all, and another
has only those that its functions say. All dialects but the one without parentheses have junctions and
negations, so they take a condition if they take its comparisons.

Whatever fits and has items can only be refused for a construct that the dialect lacks.
-/
import QueryMethods.Proofs.Filter.TextFunctions
import QueryMethods.Proofs.Filter.Ungrouped

namespace QueryMethods

namespace Dialect

/-- Whether a list must have items. -/
def needsItems : Dialect → Bool
  | .itemExpression | .relationalNamed | .searchIndex | .relationalPositional => true
  | _ => false

/-- The dialect has a form for the comparison, if its operand fits. Null stands for the empty pattern. -/
def Says (d : Dialect) (k : Comparison) : Prop :=
  match d with
  | .expressionPositional => k.op ≠ .like
  | .itemExpression => k.op = .like → ∀ v, k.operand = .value v → Expressible (v.text?.getD "")
  | _ => True

theorem says_pattern_iff {field p : String} :
    itemExpression.Says ⟨field, .like, .value (.str p)⟩ ↔ Expressible p := by
  constructor
  · exact fun h => h rfl _ rfl
  · rintro h - v ⟨⟩
    exact h

end Dialect

/-! ## Comparisons -/

namespace Grammar

variable {k : Comparison}

theorem exists_relationalPositional_iff :
    (∃ t, relationalPositional.comparison k = .ok t) ↔ k.Fits ∧ ¬k.IsEmptyList :=
  exists_comparison_iff_of_items rfl hasRulesFor_relationalPositional fun _ _ => exists_map_ok_iff

theorem exists_expressionPositional_iff :
    (∃ t, expressionPositional.comparison k = .ok t) ↔ k.Fits ∧ k.op ≠ .like := by
  by_cases hlike : k.op = .like
  · have hallows : ¬expressionPositional.allows k.op := by
      rw [hlike]
      exact Bool.false_ne_true
    refine iff_of_false ?_ fun h => h.2 hlike
    rintro ⟨t, ht⟩
    rw [comparison, if_neg hallows] at ht
    cases ht
  · have hallows : expressionPositional.allows k.op := bne_iff_ne.2 hlike
    rw [and_iff_left hlike]
    by_cases hk : k.IsList
    · obtain ⟨field, op, operand⟩ := k
      obtain ⟨rfl, v, rfl⟩ := hk
      exact exists_map_ok_iff.trans Value.exists_requireList_iff
    · exact exists_comparison_iff_of_special hallows (hasRulesFor_expressionPositional hk)

theorem exists_itemExpression_like_iff {field : String} {v : Value} :
    (∃ t, itemExpression.comparison ⟨field, .like, .value v⟩ = .ok t) ↔
      (v = .null ∨ ∃ s, v = .str s) ∧ Expressible (v.text?.getD "") := by
  have htext (p : String) :
      (∃ t, itemExpression.comparison ⟨field, .like, .value (.str p)⟩ = .ok t) ↔ Expressible p := by
    rw [Condition.comparison_like, ← TextTest.exists_ofPattern?_iff]
    cases TextTest.ofPattern? p <;> simp
  cases v with
  | null => exact (htext "").trans (and_iff_right (.inl rfl)).symm
  | str s => exact (htext s).trans (and_iff_right (.inr ⟨s, rfl⟩)).symm
  | _ =>
    refine iff_of_false ?_ fun h => by simp at h
    rintro ⟨t, ht⟩
    cases ht

theorem exists_itemExpression_iff : (∃ t, itemExpression.comparison k = .ok t) ↔
    k.Fits ∧ ¬k.IsEmptyList ∧ Dialect.itemExpression.Says k := by
  by_cases hpattern : k.IsPattern
  · obtain ⟨field, op, operand⟩ := k
    obtain ⟨rfl, v, rfl⟩ := hpattern
    rw [exists_itemExpression_like_iff]
    simp [Comparison.Fits, Comparison.IsEmptyList, Dialect.Says]
  · have hsays : Dialect.itemExpression.Says k := fun hop v hv => absurd ⟨hop, v, hv⟩ hpattern
    have hrule (hlist : ¬k.IsList) : itemExpression.special k = none :=
      hasRulesFor_itemExpression (not_or.2 ⟨hlist, hpattern⟩)
    rw [exists_comparison_iff_of_items rfl hrule fun _ _ => exists_map_ok_iff, and_iff_left hsays]

theorem exists_searchComparison_iff :
    (∃ t, searchComparison k = .ok t) ↔ k.Fits ∧ ¬k.IsEmptyList := by
  obtain ⟨field, op, operand⟩ := k
  cases operand with
  | range lo hi => cases op <;> simp [searchComparison, Comparison.Fits, Comparison.IsEmptyList]
  | value v =>
    cases op with
    | like =>
      have hpattern : (∃ t, searchComparison ⟨field, .like, .value v⟩ = .ok t) ↔
          ∃ pattern, v.pattern .unanchored field = .ok pattern := exists_map_ok_iff
      rw [hpattern, Value.exists_pattern_iff]
      simp [Comparison.Fits, Comparison.IsEmptyList]
    | oneOf =>
      have hitems : (∃ t, searchComparison ⟨field, .oneOf, .value v⟩ = .ok t) ↔
          ∃ items, v.requireItems field = .ok items := exists_map_ok_iff
      rw [hitems, Value.exists_requireItems_iff]
      simp [Comparison.Fits, Comparison.IsEmptyList]
    | _ => simp [searchComparison, Comparison.Fits, Comparison.IsEmptyList]

theorem exists_comparison_iff_says {d : Dialect} : (∃ t, d.grammar.comparison k = .ok t) ↔
    k.Fits ∧ (d.needsItems → ¬k.IsEmptyList) ∧ d.Says k := by
  cases d with
  | atNamed | dollarNamed | relationalNamed | gremlinScript =>
    refine (exists_comparison_iff rfl).trans ?_
    simp [Dialect.needsItems, Dialect.Says]
  | driverPositional =>
    refine exists_driverPositional_iff.trans ?_
    simp [Dialect.needsItems, Dialect.Says]
  | expressionPositional =>
    refine exists_expressionPositional_iff.trans ?_
    simp [Dialect.needsItems, Dialect.Says]
  | itemExpression =>
    refine exists_itemExpression_iff.trans ?_
    simp [Dialect.needsItems]
  | searchIndex =>
    refine exists_searchComparison_iff.trans ?_
    simp [Dialect.needsItems, Dialect.Says]
  | relationalPositional =>
    refine exists_relationalPositional_iff.trans ?_
    simp [Dialect.needsItems, Dialect.Says]

end Grammar

/-! ## Conditions -/

namespace Condition

variable {c : Condition} {d : Dialect} {projection : List String} {e : ConditionError}

theorem acceptedBy_iff_says (hd : d ≠ .driverPositional) : c.AcceptedBy d projection ↔
    ∀ k ∈ c.comparisons, k.Fits ∧ (d.needsItems → ¬k.IsEmptyList) ∧ d.Says k := by
  have hjunction : ∀ j, d.grammar.allowsJunction j := by
    cases d with
    | driverPositional => exact absurd rfl hd
    | _ => exact fun _ => rfl
  have hnegation : d.grammar.allowsNegation := by
    cases d with
    | driverPositional => exact absurd rfl hd
    | _ => rfl
  simp only [← Grammar.exists_comparison_iff_says]
  exact exists_map_ok_iff.trans (Grammar.exists_template_iff hjunction hnegation)

/-- If the operands fit and no list is empty, a dialect can only refuse what it lacks. -/
theorem unsupported_of_toFilter (hfits : ∀ k ∈ c.comparisons, k.Fits ∧ ¬k.IsEmptyList)
    (h : c.toFilter d projection = .error e) : ∃ construct, e = .unsupported construct d := by
  have herror : errorOf? (d.grammar.template false c) = some e := errorOf?_eq_some_iff.2 (error_of_map h)
  rw [Grammar.errorOf?_template] at herror
  obtain ⟨node, hnode, hrefusal⟩ := List.exists_of_findSome?_eq_some herror
  cases node with
  | comparison k =>
    obtain ⟨hk, hitems⟩ := hfits k (mem_comparisons_iff.2 hnode)
    cases Grammar.objection_of_comparison (errorOf?_eq_some_iff.1 hrefusal) with
    | unsupported => exact ⟨_, rfl⟩
    | misfit hmisfit => cases (Comparison.misfit?_eq_none_iff.2 hk).symm.trans hmisfit
    | emptyList hop hoperand => exact absurd ⟨hop, hoperand⟩ hitems
  | junction j =>
    rw [Grammar.refusal?, d.dialect_grammar] at hrefusal
    split at hrefusal <;> cases hrefusal
    exact ⟨_, rfl⟩
  | negation =>
    rw [Grammar.refusal?, d.dialect_grammar] at hrefusal
    split at hrefusal <;> cases hrefusal
    exact ⟨_, rfl⟩

end Condition

end QueryMethods
