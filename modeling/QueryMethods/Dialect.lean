/-
The dialects: the native query forms of the families of stores.
-/
namespace QueryMethods

/-- The families of stores, each with a query form of its own. -/
inductive Dialect where
  /-- Names after an at sign, over a document variable. -/
  | atNamed
  /-- Names after a dollar sign, over a node variable. -/
  | dollarNamed
  /-- Question marks that a driver fills from a list of values. -/
  | driverPositional
  /-- Question marks in an expression over quoted attributes. -/
  | expressionPositional
  /-- A filter over aliased columns, with tables of aliases and values. -/
  | itemExpression
  /-- Relational text with names after a colon. -/
  | relationalNamed
  /-- Query strings of a search index. -/
  | searchIndex
  /-- Traversal steps over script bindings. -/
  | gremlinScript
  /-- Relational text with question marks. -/
  | relationalPositional
  deriving DecidableEq

namespace Dialect

/-- Every dialect once, in the order in which reports list them. -/
def all : List Dialect :=
  [.atNamed, .dollarNamed, .driverPositional, .expressionPositional, .itemExpression,
    .relationalNamed, .searchIndex, .gremlinScript, .relationalPositional]

/-- The name of a dialect in reports and error messages. -/
def name : Dialect → String
  | .atNamed => "at-named"
  | .dollarNamed => "dollar-named"
  | .driverPositional => "driver-positional"
  | .expressionPositional => "expression-positional"
  | .itemExpression => "item-expression"
  | .relationalNamed => "relational-named"
  | .searchIndex => "search-index"
  | .gremlinScript => "gremlin-script"
  | .relationalPositional => "relational-positional"

/-- Whether arguments are handed over by position instead of by name. -/
def isPositional : Dialect → Bool
  | .driverPositional | .expressionPositional | .relationalPositional => true
  | _ => false

theorem mem_all (d : Dialect) : d ∈ all := by
  cases d <;> decide

end Dialect

end QueryMethods
