/-
Comparisons with a form of their own. Each grammar writes most comparisons as field, symbol and
value; it has a rule for the ranges, the lists or the patterns that it writes in another way, and for
comparisons of any other shape it has none.
-/
import QueryMethods.Grammar.Item

namespace QueryMethods

namespace Comparison

/-- A comparison with both bounds of a range. -/
def IsRange (k : Comparison) : Prop :=
  k.op = .between ∧ ∃ lo hi, k.operand = .range lo hi

/-- A comparison with the items of a list. -/
def IsList (k : Comparison) : Prop :=
  k.op = .oneOf ∧ ∃ v, k.operand = .value v

/-- A comparison with a pattern. -/
def IsPattern (k : Comparison) : Prop :=
  k.op = .like ∧ ∃ v, k.operand = .value v

end Comparison

namespace Grammar

/-- All comparisons that the grammar has a rule for are of this shape. -/
def HasRulesFor (g : Grammar) (shape : Comparison → Prop) : Prop :=
  ∀ {k}, ¬shape k → g.special k = none

/-! ## Rules for ranges -/

theorem hasRulesFor_atNamed (var : String) : (atNamed var).HasRulesFor Comparison.IsRange := by
  intro k h
  simp only [atNamed]
  split
  · rename_i lo hi
    exact absurd ⟨rfl, lo, hi, rfl⟩ h
  · rfl

theorem hasRulesFor_dollarNamed (var : String) :
    (dollarNamed var).HasRulesFor Comparison.IsRange := by
  intro k h
  simp only [dollarNamed]
  split
  · rename_i lo hi
    exact absurd ⟨rfl, lo, hi, rfl⟩ h
  · rfl

theorem hasRulesFor_driverPositional : driverPositional.HasRulesFor Comparison.IsRange := by
  intro k h
  simp only [driverPositional]
  split
  · rename_i lo hi
    exact absurd ⟨rfl, lo, hi, rfl⟩ h
  · rfl

/-! ## Rules for lists and patterns -/

theorem hasRulesFor_expressionPositional :
    expressionPositional.HasRulesFor Comparison.IsList := by
  intro k h
  simp only [expressionPositional]
  split
  · rename_i v
    exact absurd ⟨rfl, v, rfl⟩ h
  · rfl

theorem hasRulesFor_relationalNamed : relationalNamed.HasRulesFor Comparison.IsList := by
  intro k h
  simp only [relationalNamed]
  split
  · rename_i v
    exact absurd ⟨rfl, v, rfl⟩ h
  · rfl

theorem hasRulesFor_relationalPositional :
    relationalPositional.HasRulesFor Comparison.IsList := by
  intro k h
  simp only [relationalPositional]
  split
  · rename_i v
    exact absurd ⟨rfl, v, rfl⟩ h
  · rfl

theorem hasRulesFor_itemExpression :
    itemExpression.HasRulesFor fun k => k.IsList ∨ k.IsPattern := by
  intro k h
  simp only [itemExpression]
  split
  · rename_i v
    exact absurd (.inl ⟨rfl, v, rfl⟩) h
  · rename_i v
    exact absurd (.inr ⟨rfl, v, rfl⟩) h
  · rfl

end Grammar

end QueryMethods
