/-
Binding of arguments to the names that a method declares.
-/
import QueryMethods.Failure
namespace QueryMethods.Method

/-- The named parameters with their arguments, in order of declaration. Parameters without a name
are left out, for they are reached by position. -/
def bind (m : Method) (args : List Value) : Except Failure (Entries Value) := do
  if let .error e := m.checkBindings then throw (.declaration e)
  if args.length ≠ m.parameters.length then
    throw (.binding (.argumentCount m.parameters.length args.length))
  return (m.parameters.zip args).filterMap fun (name, arg) => name.map (·, arg)

end QueryMethods.Method
