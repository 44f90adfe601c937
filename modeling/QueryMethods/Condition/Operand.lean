/-
What comparisons ask of their operands.
-/
import QueryMethods.Condition.Error
namespace QueryMethods

namespace ConditionError

/-- The error of an operand that is a value of the wrong kind. -/
def wrongKind (op : Operator) (field : String) (expected : ExpectedOperand) (v : Value) :
    ConditionError :=
  .operandType op field expected (.value v.kind)

end ConditionError

namespace Value

/-- The text that a pattern operand becomes; a null is written by the style's own rule. -/
def pattern (style : PatternStyle) (field : String) : Value → Except ConditionError String
  | .str s => .ok (style.write (some s))
  | .null => .ok (style.write none)
  | v => .error (.wrongKind .like field .string v)

/-- The items of a list, empty or not; any other value has the wrong kind. -/
def requireList (field : String) : Value → Except ConditionError (List Value)
  | .list items => .ok items
  | v => .error (.wrongKind .oneOf field .list v)

/-- The items of a list, for dialects that write them out and have no form for an empty list. -/
def requireItems (field : String) (v : Value) : Except ConditionError (List Value) :=
  match v.requireList field with
  | .ok [] => .error (.operandType .oneOf field .nonEmptyList .emptyList)
  | result => result

end Value

/-- The pattern that looks for a text, which must be there. -/
def MatchKind.pattern (kind : MatchKind) : Option String → Except ConditionError String
  | some s => .ok (kind.around s)
  | none => .error (.nullMatch kind)

end QueryMethods
