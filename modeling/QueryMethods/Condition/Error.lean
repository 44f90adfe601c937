/-
Why a condition has no native form: the dialect lacks a construct, an operand is of the wrong
kind, or a text is looked for and there is none.
-/
import QueryMethods.Condition.Basic
import QueryMethods.Dialect
import QueryMethods.Pattern
namespace QueryMethods

/-- What a dialect may lack. -/
inductive Construct where
  | operator (op : Operator)
  | junction (j : Junction)
  | negation
  deriving DecidableEq

/-- The name of a construct in error messages. -/
def Construct.name : Construct → String
  | .operator op => op.name
  | .junction j => j.name
  | .negation => "NOT"

/-- The operands that comparisons ask for. -/
inductive ExpectedOperand where
  | string | list | nonEmptyList | range | singleValue
  deriving DecidableEq

/-- The words for an expected operand in error messages. -/
def ExpectedOperand.name : ExpectedOperand → String
  | .string => "string"
  | .list => "list"
  | .nonEmptyList => "non-empty list"
  | .range => "range"
  | .singleValue => "single value"

/-- The operands that comparisons refuse. -/
inductive FoundOperand where
  | value (kind : Kind)
  | range
  | emptyList
  deriving DecidableEq

/-- The words for a found operand in error messages. -/
def FoundOperand.name : FoundOperand → String
  | .value kind => kind.name
  | .range => "range"
  | .emptyList => "empty list"

/-- What can be wrong with a condition, in itself or for a dialect. -/
inductive ConditionError where
  | unsupported (construct : Construct) (dialect : Dialect)
  | nullMatch (kind : MatchKind)
  | operandType (op : Operator) (field : String) (expected : ExpectedOperand)
      (found : FoundOperand)
  deriving DecidableEq

/-- The text of the error, which names the construct and the dialect, or the field and what was found. -/
def ConditionError.message : ConditionError → String
  | .unsupported construct dialect =>
    "Operator " ++ construct.name ++ " is not supported by the " ++ dialect.name ++ " dialect"
  | .nullMatch kind => kind.name ++ " match requires a non-null value"
  | .operandType op field expected found =>
    op.name ++ " on `" ++ field ++ "` expects a " ++ expected.name ++ " operand, got " ++ found.name

end QueryMethods
