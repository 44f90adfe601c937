/-
The grammar of traversal scripts: a comparison is a step that tests a key, and junctions and
negations are steps over anonymous traversals.
-/
import QueryMethods.Grammar.Basic
import QueryMethods.Text.Quoted
namespace QueryMethods.Grammar

/-- A predicate that applies a function to one slot. -/
def predicate (function field : String) (v : Value) : Template :=
  [.text (function ++ "("), .slot field v, .text ")"]

/-- The predicate of a comparison. Both bounds of a range are kept, hence two predicates; a range
in any other comparison is told by the kind of its low bound. -/
def traversalPredicate (c : Comparison) : Except ConditionError Template :=
  let field := c.field
  match c.op, c.operand with
  | .between, .range lo hi =>
    .ok [.text "gte(", low field lo, .text ").and(lte(", high field hi, .text "))"]
  | .between, .value v => .error (.wrongKind .between field .range v)
  | op, .range lo _ => .error (.wrongKind op field .singleValue lo)
  | .equal, .value v => .ok [.slot field v]
  | .greaterThan, .value v => .ok (predicate "gt" field v)
  | .greaterEqual, .value v => .ok (predicate "gte" field v)
  | .lessThan, .value v => .ok (predicate "lt" field v)
  | .lessEqual, .value v => .ok (predicate "lte" field v)
  | .oneOf, .value v => (fun _ => predicate "within" field v) <$> v.requireList field
  | .like, .value v =>
    (fun pattern => predicate "regex" field (.str pattern)) <$> v.pattern .anchored field

/-- The step that tests a field by a predicate. -/
def hasStep (c : Comparison) (p : Template) : Template :=
  .text ("has(" ++ Text.singleQuoted c.field ++ ", ") :: p ++ [.text ")"]

/-- The step that joins traversals. -/
def stepName : Junction → String
  | .and => "and"
  | .or => "or"

/-- Steps are calls, so nesting needs no parentheses. -/
def stepJunction (j : Junction) (_nested : Bool) (parts : List Template) : Template :=
  .text (stepName j ++ "(") :: Template.separated ", " (parts.map (.text "__." :: ·)) ++ [.text ")"]

/-- Conditions are steps of a traversal, with the names of script bindings for values. -/
def gremlinScript : Grammar where
  dialect := .gremlinScript
  patterns := .anchored
  special c := some (hasStep c <$> traversalPredicate c)
  junction := stepJunction
  negation inner := .text "not(__." :: inner ++ [.text ")"]

end QueryMethods.Grammar
