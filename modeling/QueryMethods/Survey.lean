/-
Surveys: how a method name reads and what it becomes in every dialect, with sample arguments that
suit each keyword.
-/
import QueryMethods.Filter.Native
import QueryMethods.Method.Origin
import QueryMethods.Name.Meaning
import QueryMethods.Text.Blank
import QueryMethods.Text.Padding
namespace QueryMethods

/-- Arguments for a segment, told apart by its index. -/
def sample (k : Name.Keyword) (index : Nat) : List Value :=
  match k with
  | .between => [.int (.ofNat index), .int (.ofNat index + 10)]
  | .oneOf | .notOneOf => [.list [.str "a", .str "b"]]
  | .like | .notLike => [.str "A_a%"]
  | .matching _ => [.str "Ada"]
  | _ => [.int (.ofNat index)]

/-- Arguments for a plan, the samples of its segments. -/
def Name.Plan.samples (p : Name.Plan) : List Value :=
  p.segments.zipIdx.flatMap fun (s, index) => sample s.keyword index

/-- What a name becomes in the dialects. -/
inductive Survey where
  /-- There is no derived query, and why. -/
  | note (text : String)
  | filters (results : List (Dialect × Except ConditionError Filter))

namespace Survey

/-- Surveys a name as that of a method without parameters that gives a list. -/
def ofName (name : String) : Survey :=
  match ({ name, returns := .orderedList } : Method).origin with
  | .error e => .note e.message
  | .ok (.derived plan) =>
    match plan.instantiate plan.samples with
    | .error e => .note e.message
    | .ok condition => .filters (Dialect.all.map fun d => (d, condition.toFilter d []))
  | .ok other => .note (other.kind ++ " method, nothing to translate")

/-- The line of a dialect: its filter or why there is none. -/
def filterLine (d : Dialect) (result : Except ConditionError Filter) : String :=
  let text := match result with
    | .ok filter => filter.render
    | .error e => e.message
  "  " ++ Text.padStart ' ' 22 d.name ++ ": " ++ text

/-- The survey of a name as lines, with a remark on the time that reading it took. -/
def lines (name remark : String) : Survey → List String
  | .note text => [name ++ ": " ++ text]
  | .filters results =>
    (name ++ " [parsed" ++ remark ++ "]") ::
      results.map fun (d, result) => filterLine d result

end Survey

/-- The names in an input, one on each line; blank lines are skipped. -/
def surveyNames (input : String) : List String :=
  ((input.splitOn "\n").map Text.trim).filter (!·.isEmpty)

/-- The surveys of all names in an input, without times. -/
def surveyReport (input : String) : List String :=
  (surveyNames input).flatMap fun name => (Survey.ofName name).lines name ""

end QueryMethods
