/-
The origin of a method's query: a primitive of the store, the text on the declaration, or the name
itself.
-/
import QueryMethods.Method.Basic
import QueryMethods.Store.Primitive
namespace QueryMethods

/-- Where the query of a method comes from. -/
inductive Origin where
  | builtin (op : Primitive)
  | literal (query : String)
  | derived (plan : Name.Plan)
  deriving DecidableEq

/-- The word for an origin in reports. -/
def Origin.kind : Origin → String
  | .builtin _ => "builtin"
  | .literal _ => "literal"
  | .derived _ => "derived"

namespace Method

/-- The primitive that a method is: its name in either style with as many parameters as the
primitive takes. -/
def primitive? (m : Method) : Option Primitive :=
  match Name.words m.name with
  | .error _ => none
  | .ok words => Primitive.all.find? fun op =>
    op.arity == m.parameters.length && op.words == words.map Name.Word.folded

/-- The shape that a query for the subject must be declared with. -/
def requiredShape : Name.Subject → Option ReturnShape
  | .find => none
  | .count => some .count
  | .existence => some .existence

/-- Primitives come before query texts, and query texts before names. -/
def origin (m : Method) : Except DeclarationError Origin :=
  match m.primitive?, m.query with
  | some op, _ => .ok (.builtin op)
  | none, some query => .ok (.literal query)
  | none, none =>
    match Name.parse m.name with
    | .error e => .error (.unrecognized m.name e)
    | .ok plan =>
      if (requiredShape plan.subject).all (· == m.returns) then .ok (.derived plan)
      else .error (.shapeMismatch m.name plan.subject m.returns)

/-- A declaration that can be used: distinct binding names and a query from somewhere. -/
def validate (m : Method) : Except DeclarationError Unit := do
  m.checkBindings
  let _ ← m.origin

end Method

end QueryMethods
