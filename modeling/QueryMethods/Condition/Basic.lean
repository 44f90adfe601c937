/-
Conditions: trees of comparisons under conjunctions, disjunctions and negations, and the joining of
conditions without needless nesting.
-/
import QueryMethods.Value.Basic
namespace QueryMethods

/-- The comparisons between a field and an operand. -/
inductive Operator where
  | equal | like | greaterThan | greaterEqual | lessThan | lessEqual | between | oneOf
  deriving DecidableEq

namespace Operator

/-- Every operator once. -/
def all : List Operator :=
  [.equal, .like, .greaterThan, .greaterEqual, .lessThan, .lessEqual, .between, .oneOf]

/-- The name of an operator in error messages. -/
def name : Operator → String
  | .equal => "EQUAL"
  | .like => "LIKE"
  | .greaterThan => "GREATER_THAN"
  | .greaterEqual => "GREATER_EQUAL"
  | .lessThan => "LESS_THAN"
  | .lessEqual => "LESS_EQUAL"
  | .between => "BETWEEN"
  | .oneOf => "IN"

/-- The sign of the operator in texts of the relational kind. -/
def symbol : Operator → String
  | .equal => "="
  | .like => "LIKE"
  | .greaterThan => ">"
  | .greaterEqual => ">="
  | .lessThan => "<"
  | .lessEqual => "<="
  | .between => "BETWEEN"
  | .oneOf => "IN"

end Operator

/-- The ways to join conditions. -/
inductive Junction where
  | and | or
  deriving DecidableEq

/-- The word that a junction is written as between its children. -/
def Junction.name : Junction → String
  | .and => "AND"
  | .or => "OR"

/-- What a field is compared with. A range has inclusive bounds; only `Operator.between` takes it. -/
inductive Operand where
  | value (v : Value)
  | range (low high : Value)

/-- A field with an operator and its operand. -/
structure Comparison where
  field : String
  op : Operator
  operand : Operand

/-- A condition on records: a tree over comparisons. -/
inductive Condition where
  | comparison (c : Comparison)
  | junction (j : Junction) (children : List Condition)
  | not (inner : Condition)

namespace Condition

/-- A comparison with a single value. -/
def compare (field : String) (op : Operator) (v : Value) : Condition :=
  .comparison ⟨field, op, .value v⟩

/-- A comparison with a range. -/
def between (field : String) (low high : Value) : Condition :=
  .comparison ⟨field, .between, .range low high⟩

/-- The children of a condition that is the given junction, otherwise the condition alone. -/
def operands (j : Junction) : Condition → List Condition
  | .junction j' children => if j' = j then children else [.junction j' children]
  | c => [c]

/-- Joins conditions: children that are the same junction give their own children, and a single
condition stands for itself. -/
def join (j : Junction) (children : List Condition) : Condition :=
  match children.flatMap (operands j) with
  | [c] => c
  | flat => .junction j flat

end Condition

end QueryMethods
