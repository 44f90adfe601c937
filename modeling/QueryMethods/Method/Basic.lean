/-
Methods: the declarations of a repository, and what can be wrong with one.
-/
import QueryMethods.Name.Plan
namespace QueryMethods

/-- How the result of a method is handed back. -/
inductive ReturnShape where
  | single | nullableSingle | orderedList | uniqueSet | lazySequence | count | existence | nothing
  deriving DecidableEq

/-- The name of a shape in error messages. -/
def ReturnShape.name : ReturnShape → String
  | .single => "Single"
  | .nullableSingle => "NullableSingle"
  | .orderedList => "OrderedList"
  | .uniqueSet => "UniqueSet"
  | .lazySequence => "LazySequence"
  | .count => "Count"
  | .existence => "Exists"
  | .nothing => "Unit"

/-- The declaration of a method. -/
structure Method where
  name : String
  /-- The binding names of the parameters; one without a name is reached by position only. -/
  parameters : List (Option String) := []
  returns : ReturnShape
  /-- A query text that is passed on as it is. -/
  query : Option String := none
  /-- The columns to select; none means all. -/
  projection : List String := []
  deriving DecidableEq

/-- What can be wrong with a method, or with the name that one is invoked by. -/
inductive DeclarationError where
  | unrecognized (method : String) (cause : Name.ParseError)
  | duplicateBinding (method name : String)
  | shapeMismatch (method : String) (subject : Name.Subject) (declared : ReturnShape)
  | unknownMethod (name : String)
  deriving DecidableEq

/-- The text of the error, which names the method. -/
def DeclarationError.message : DeclarationError → String
  | .unrecognized method cause =>
    "Method `" ++ method
      ++ "` is not a builtin, carries no query and is not a derived query name: " ++ cause.message
  | .duplicateBinding method name =>
    "Method `" ++ method ++ "` declares the binding name `" ++ name ++ "` more than once"
  | .shapeMismatch method subject declared =>
    "Method `" ++ method ++ "` is a " ++ subject.name ++ " query but declares a "
      ++ declared.name ++ " result"
  | .unknownMethod name => "No descriptor for method `" ++ name ++ "`"

/-- The first text that is among those before it. -/
def firstRepeated? (seen : List String) : List String → Option String
  | [] => none
  | s :: r => if s ∈ seen then some s else firstRepeated? (s :: seen) r

namespace Method

/-- The names that parameters are bound to, in order. -/
def bindingNames (m : Method) : List String :=
  m.parameters.filterMap id

/-- Binding names must differ from each other. -/
def checkBindings (m : Method) : Except DeclarationError Unit :=
  match firstRepeated? [] m.bindingNames with
  | some name => .error (.duplicateBinding m.name name)
  | none => .ok ()

end Method

end QueryMethods
