/-
Invocations: a method and its arguments are first made into a request, which is where declarations,
arguments and conditions can fail; then the store is asked once, and its answer is shaped.
-/
import QueryMethods.Filter.Native
import QueryMethods.Method.Binding
import QueryMethods.Method.Origin
import QueryMethods.Name.Meaning
import QueryMethods.Result.Shape
import QueryMethods.Store.Basic
namespace QueryMethods

/-- What is fixed for all invocations of a repository. -/
structure Settings where
  dialect : Dialect := .atNamed
  /-- Hide quoted literals in the failures of the store. -/
  redactLiterals : Bool := true
  /-- Check all methods when a repository is made. -/
  eagerValidation : Bool := true
  deriving DecidableEq

/-! ## Preparing a request -/

/-- A request and the context for failures of the store. -/
structure Prepared where
  request : Request
  context : QueryContext

namespace Settings

/-- The request of a primitive, which takes as many arguments as its arity says. -/
def prepareBuiltin (s : Settings) (op : Primitive) (args : List Value) : Except Failure Prepared :=
  if args.length = op.arity then
    .ok ⟨.primitive op args.head?, .ofQuery s.dialect false op.name⟩
  else .error (.binding (.argumentCount op.arity args.length))

/-- The request of a query text, with the arguments by position or by name as the dialect takes them. -/
def prepareLiteral (s : Settings) (m : Method) (query : String) (args : List Value) :
    Except Failure Prepared := do
  let bindings ← m.bind args
  let params := if s.dialect.isPositional then .positional args else .named bindings
  return ⟨.literal s.dialect query params, .ofQuery s.dialect s.redactLiterals query⟩

/-- The request of a derived query: its plan makes a condition of the arguments, and the dialect a
filter of it. -/
def prepareDerived (s : Settings) (m : Method) (plan : Name.Plan) (args : List Value) :
    Except Failure Prepared := do
  let condition ← plan.instantiate args
  match condition.toFilter s.dialect m.projection with
  | .error e => throw (.condition e)
  | .ok filter =>
    return ⟨.filter s.dialect filter, .ofQuery s.dialect s.redactLiterals filter.queryText⟩

/-- The request of a method for one list of arguments. -/
def prepare (s : Settings) (m : Method) (args : List Value) : Except Failure Prepared :=
  match m.origin with
  | .error e => .error (.declaration e)
  | .ok (.builtin op) => s.prepareBuiltin op args
  | .ok (.literal query) => s.prepareLiteral m query args
  | .ok (.derived plan) => s.prepareDerived m plan args

end Settings

/-! ## Asking a store -/

/-- What an invocation does and gives. -/
structure Invocation (α : Type) where
  /-- The requests that the store was asked, in order. -/
  requests : List Request
  result : Except Failure (Shaped α)
  /-- The rows as shaping leaves them, if the store answered. -/
  rows : Option (Rows α)

namespace Invocation

variable {α : Type}

/-- An invocation that fails before the store is asked. -/
def refused (e : Failure) : Invocation α := ⟨[], .error e, none⟩

/-- Asks the store, after some earlier requests, and shapes its answer. -/
def ask [BEq α] (store : Store α) (earlier : List Request) (shape : ReturnShape) (p : Prepared) :
    Invocation α :=
  match store earlier p.request with
  | .error e => ⟨[p.request], .error (.store p.context e), none⟩
  | .ok reply =>
    let shaping := shape.ofReply reply p.context
    ⟨[p.request], shaping.result, some shaping.rows⟩

end Invocation

/-- Invokes a method on a store that has been asked some earlier requests. -/
def Settings.invoke {α : Type} [BEq α] (s : Settings) (store : Store α) (earlier : List Request)
    (m : Method) (args : List Value) : Invocation α :=
  match s.prepare m args with
  | .error e => .refused e
  | .ok p => .ask store earlier m.returns p

end QueryMethods
