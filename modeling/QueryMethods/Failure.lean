/-
Failures of an invocation, one class for each stage that it goes through.
-/
import QueryMethods.Condition.Error
import QueryMethods.Method.Basic
import QueryMethods.Store.Cursor
import QueryMethods.Text.Redaction
namespace QueryMethods

/-- What can be wrong with the arguments of an invocation. -/
inductive BindingError where
  | argumentCount (expected actual : Nat)
  deriving DecidableEq

/-- The text of the error, with both counts. -/
def BindingError.message : BindingError → String
  | .argumentCount expected actual =>
    "Expected " ++ toString expected ++ " argument(s), got " ++ toString actual

/-- Why an answer does not fit the declared shape. -/
inductive ShapeError where
  | ambiguous
  | notFound
  /-- A count came where the shape asks for rows. -/
  | unexpectedCount (shape : ReturnShape)
  deriving DecidableEq

/-- The text of the error. -/
def ShapeError.message : ShapeError → String
  | .ambiguous => "Expected a single result, got more than one"
  | .notFound => "Expected a single result, got none"
  | .unexpectedCount shape => "A " ++ shape.name ++ " result can't be built from a count"

/-- Where a failure of the store comes from. -/
structure QueryContext where
  dialect : Dialect
  query : String
  deriving DecidableEq

/-- The context of a query, with its quoted literals hidden if `redacted`. -/
def QueryContext.ofQuery (dialect : Dialect) (redacted : Bool) (query : String) : QueryContext :=
  ⟨dialect, if redacted then Text.redact query else query⟩

/-- A failure of an invocation: of the declaration, the condition, the binding of arguments, the
shaping of the result or the store. -/
inductive Failure where
  | declaration (e : DeclarationError)
  | condition (e : ConditionError)
  | binding (e : BindingError)
  | result (e : ShapeError)
  | store (context : QueryContext) (e : StoreError)
  deriving DecidableEq

namespace Failure

/-- The text of a failure; only that of the store shows the query. -/
def message : Failure → String
  | .declaration e => "Configuration error: " ++ e.message
  | .condition e => "Translation error: " ++ e.message
  | .binding e => "Binding error: " ++ e.message
  | .result e => "Result error: " ++ e.message
  | .store context e =>
    "Backend error (" ++ context.dialect.name ++ ") running `" ++ context.query ++ "`: "
      ++ e.message

/-- The texts of what lies beneath a failure of the store, nearest first. -/
def causes : Failure → List String
  | .store _ e => e.message :: e.causes
  | _ => []

end Failure

end QueryMethods
