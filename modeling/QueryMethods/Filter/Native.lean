/-
Native filters: the filter of a condition in each dialect is its template by the dialect's grammar,
filled in by the dialect's marking.
-/
import QueryMethods.Filter.Marking
import QueryMethods.Grammar.Item
import QueryMethods.Grammar.Search
import QueryMethods.Grammar.Traversal
namespace QueryMethods

namespace Dialect

/-- The grammar of a dialect, over the variables that queries usually have. -/
def grammar : Dialect → Grammar
  | .atNamed => .atNamed "e"
  | .dollarNamed => .dollarNamed "n"
  | .driverPositional => .driverPositional
  | .expressionPositional => .expressionPositional
  | .itemExpression => .itemExpression
  | .relationalNamed => .relationalNamed
  | .searchIndex => .searchIndex
  | .gremlinScript => .gremlinScript
  | .relationalPositional => .relationalPositional

/-- How a dialect refers to its values. -/
def marking : Dialect → Marking
  | .atNamed | .searchIndex => .named "@"
  | .dollarNamed => .named "$"
  | .relationalNamed => .named ":"
  | .gremlinScript => .named ""
  | .driverPositional | .expressionPositional | .relationalPositional => .positional
  | .itemExpression => .tables

theorem dialect_grammar (d : Dialect) : d.grammar.dialect = d := by
  cases d <;> rfl

end Dialect

/-- The filter of a condition by a grammar and the marking of its dialect. A projection only shows
in dialects that have a clause for it. -/
def Grammar.filterOf (g : Grammar) (c : Condition) (projection : List String) :
    Except ConditionError Filter :=
  (g.template false c).map fun t => g.dialect.marking.fill t (projection.map g.column)

/-- The filter of a condition in a dialect. -/
def Condition.toFilter (c : Condition) (d : Dialect) (projection : List String) :
    Except ConditionError Filter :=
  d.grammar.filterOf c projection

end QueryMethods
