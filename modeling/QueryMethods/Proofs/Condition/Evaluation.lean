/-
The truth of a condition, given the truth of its comparisons, and what else is said of its tree.
-/
import QueryMethods.Condition.Basic

namespace QueryMethods

/-- The truth of a junction, given that of its children. -/
def Junction.combine : Junction → List Bool → Bool
  | .and, bs => bs.all id
  | .or, bs => bs.any id

namespace Condition

mutual

/-- Whether a condition is true, given which comparisons are. -/
def eval (holds : Comparison → Bool) : Condition → Bool
  | .comparison k => holds k
  | .junction j cs => j.combine (evals holds cs)
  | .not c => !eval holds c

/-- Which of some conditions are true. -/
def evals (holds : Comparison → Bool) : List Condition → List Bool
  | [] => []
  | c :: r => eval holds c :: evals holds r

end

mutual

/-- The comparisons of a condition from left to right. -/
def comparisons : Condition → List Comparison
  | .comparison k => [k]
  | .junction _ cs => comparisonsAll cs
  | .not c => comparisons c

/-- The comparisons of some conditions, from left to right. -/
def comparisonsAll : List Condition → List Comparison
  | [] => []
  | c :: r => comparisons c ++ comparisonsAll r

end

theorem comparisonsAll_eq_flatMap (cs : List Condition) :
    comparisonsAll cs = cs.flatMap comparisons := by
  induction cs with
  | nil => rfl
  | cons c cs ih => rw [comparisonsAll, ih, List.flatMap_cons]

mutual

/-- Every junction has a child. -/
def Full : Condition → Prop
  | .comparison _ => True
  | .junction _ cs => cs ≠ [] ∧ FullAll cs
  | .not c => Full c

/-- Each of some conditions is full. -/
def FullAll : List Condition → Prop
  | [] => True
  | c :: r => Full c ∧ FullAll r

end

end Condition

end QueryMethods
