/-
What operands must have been when a comparison took them.
-/
import QueryMethods.Condition.Operand

namespace QueryMethods

theorem Value.ok_of_requireList {field : String} {v : Value} {items : List Value}
    (h : v.requireList field = .ok items) : v = .list items := by
  cases v <;> simp_all [requireList]

theorem Value.ok_of_requireItems {field : String} {v : Value} {items : List Value}
    (h : v.requireItems field = .ok items) : v = .list items ∧ items ≠ [] := by
  unfold requireItems at h
  cases hv : v.requireList field with
  | error e => rw [hv] at h; cases h
  | ok xs =>
    rw [hv] at h
    cases xs with
    | nil => cases h
    | cons x xs => cases h; exact ⟨ok_of_requireList hv, by simp⟩

end QueryMethods
