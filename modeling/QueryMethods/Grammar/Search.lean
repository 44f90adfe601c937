/-
The grammar of search indexes: a field, a colon and what is looked for, with bounds in brackets if
they are included and in braces if they are not.
-/
import QueryMethods.Grammar.Basic
namespace QueryMethods.Grammar

/-- A clause that looks for one slot between two texts. -/
def searchClause (field before : String) (v : Value) (after : String) : Template :=
  [.text (field ++ ":" ++ before), .slot field v, .text after]

/-- A range that no comparison but `Operator.between` takes is told by the kind of its low bound. -/
def searchComparison (c : Comparison) : Except ConditionError Template :=
  let field := c.field
  match c.op, c.operand with
  | .between, .range lo hi =>
    .ok [.text (field ++ ":["), low field lo, .text " TO ", high field hi, .text "]"]
  | .between, .value v => .error (.wrongKind .between field .range v)
  | op, .range lo _ => .error (.wrongKind op field .singleValue lo)
  | .equal, .value v => .ok (searchClause field "" v "")
  | .greaterThan, .value v => .ok (searchClause field "\x7b" v " TO *\x7d")
  | .greaterEqual, .value v => .ok (searchClause field "[" v " TO *]")
  | .lessThan, .value v => .ok (searchClause field "\x7b* TO " v "\x7d")
  | .lessEqual, .value v => .ok (searchClause field "[* TO " v "]")
  | .oneOf, .value v => do
    let items ← v.requireItems field
    return .text (field ++ ":(") ::
      Template.separated " OR " (items.map fun item => [.slot field item]) ++ [.text ")"]
  | .like, .value v => do
    let pattern ← v.pattern .unanchored field
    return searchClause field "/" (.str pattern) "/"

/-- Every comparison is written as a field and what is sought in it, a pattern as a regular
expression. -/
def searchIndex : Grammar where
  dialect := .searchIndex
  patterns := .unanchored
  special c := some (searchComparison c)

end QueryMethods.Grammar
