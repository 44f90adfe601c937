/-
The meaning of a plan: the condition that it makes of one list of arguments. Each segment takes its
own arguments in the order of the name.
-/
import QueryMethods.Condition.Operand
import QueryMethods.Failure
namespace QueryMethods.Name

/-- The comparison that looks for the text of a value. -/
def matching (kind : MatchKind) (field : String) (v : Value) :
    Except ConditionError Condition :=
  let pattern := match v with
    | .str s => kind.pattern (some s)
    | .null => kind.pattern none
    | v => .error (.wrongKind .like field .string v)
  (fun s => Condition.compare field .like (.str s)) <$> pattern

/-- What takes its values one after the other from those that are left of the arguments. -/
abbrev Taking := StateT (List Value) (Except ConditionError)

/-- The next argument, or null if none are left. -/
def next : Taking Value := fun args => .ok (args.headD .null, args.tail)

/-- The condition of a segment, which takes as many arguments as its comparison needs. -/
def Segment.condition (s : Segment) : Taking Condition :=
  let compare op := Condition.compare s.field op <$> next
  match s.keyword with
  | .equal => compare .equal
  | .not => .not <$> compare .equal
  | .greaterThan => compare .greaterThan
  | .greaterEqual => compare .greaterEqual
  | .lessThan => compare .lessThan
  | .lessEqual => compare .lessEqual
  | .between => do
    let low ← next
    let high ← next
    return .between s.field low high
  | .oneOf => compare .oneOf
  | .notOneOf => .not <$> compare .oneOf
  | .like => compare .like
  | .notLike => .not <$> compare .like
  | .matching kind => do matching kind s.field (← next)

namespace Plan

/-- The conjunction of a group of segments, which take their arguments one after the other. -/
def groupCondition (group : List Segment) : Taking Condition :=
  Condition.join .and <$> group.mapM Segment.condition

/-- The disjunction of the groups, which take their arguments one after the other. -/
def condition (p : Plan) : Taking Condition :=
  Condition.join .or <$> p.disjuncts.mapM groupCondition

/-- The condition of a plan; the number of arguments is checked before anything else. -/
def instantiate (p : Plan) (args : List Value) : Except Failure Condition :=
  if args.length = p.arity then
    match p.condition.run' args with
    | .ok condition => .ok condition
    | .error e => .error (.condition e)
  else .error (.binding (.argumentCount p.arity args.length))

end Plan

end QueryMethods.Name
