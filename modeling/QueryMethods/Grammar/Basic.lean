/-
Grammars: what a dialect can say and how it says it. The template of a condition follows its tree
from left to right, so the first node without a form in the dialect decides the error.
-/
import QueryMethods.Condition.Operand
import QueryMethods.Template
namespace QueryMethods

/-- Parts between the junction's name, in parentheses where the junction is nested. -/
def infixJunction (j : Junction) (nested : Bool) (parts : List Template) : Template :=
  (Template.separated (" " ++ j.name ++ " ") parts).grouped nested

/-- The word for a negation before its condition in parentheses. -/
def negationBefore (inner : Template) : Template :=
  .text "NOT (" :: inner ++ [.text ")"]

/-- What a dialect can say and how it says it. -/
structure Grammar where
  dialect : Dialect
  /-- How patterns are handed over. -/
  patterns : PatternStyle := .native
  allows : Operator → Bool := fun _ => true
  allowsJunction : Junction → Bool := fun _ => true
  allowsNegation : Bool := true
  /-- A reference to a field. -/
  column : String → Template := fun field => [.text field]
  symbol : Operator → String := Operator.symbol
  /-- The comparisons that are not written as field, symbol and value. -/
  special : Comparison → Option (Except ConditionError Template) := fun _ => none
  junction : Junction → Bool → List Template → Template := infixJunction
  negation : Template → Template := negationBefore

namespace Grammar

/-- The slots of a range. -/
def low (field : String) (v : Value) : Piece := .slot (field ++ "_lo") v

/-- The slot of the upper bound. -/
def high (field : String) (v : Value) : Piece := .slot (field ++ "_hi") v

/-- A comparison as field, symbol and value. -/
def plain (g : Grammar) (c : Comparison) : Except ConditionError Template :=
  let withSymbol (v : Value) : Template :=
    g.column c.field ++ [.text (" " ++ g.symbol c.op ++ " "), .slot c.field v]
  match c.op, c.operand with
  | .between, .range lo hi =>
    .ok (g.column c.field ++
      [.text " BETWEEN ", low c.field lo, .text " AND ", high c.field hi])
  | .between, .value v => .error (.wrongKind .between c.field .range v)
  | op, .range .. => .error (.operandType op c.field .singleValue .range)
  | .like, .value v => (fun s => withSymbol (.str s)) <$> v.pattern g.patterns c.field
  | .oneOf, .value v =>
    (fun _ => g.column c.field ++ [.text " IN ", .slot c.field v]) <$> v.requireList c.field
  | _, .value v => .ok (withSymbol v)

/-- A comparison in the form that the grammar has for it, which fails if there is none. -/
def comparison (g : Grammar) (c : Comparison) : Except ConditionError Template :=
  if g.allows c.op then (g.special c).getD (g.plain c)
  else .error (.unsupported (.operator c.op) g.dialect)

mutual

/-- The template of a condition, which is nested if it stands directly in a junction. -/
def template (g : Grammar) (nested : Bool) : Condition → Except ConditionError Template
  | .comparison c => g.comparison c
  | .junction j children =>
    if g.allowsJunction j then g.junction j nested <$> templates g children
    else .error (.unsupported (.junction j) g.dialect)
  | .not inner =>
    if g.allowsNegation then g.negation <$> template g false inner
    else .error (.unsupported .negation g.dialect)

/-- The templates of a junction's children. -/
def templates (g : Grammar) : List Condition → Except ConditionError (List Template)
  | [] => .ok []
  | c :: r => do
    let first ← template g true c
    let others ← templates g r
    return first :: others

end

end Grammar

end QueryMethods
