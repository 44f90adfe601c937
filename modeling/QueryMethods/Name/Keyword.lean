/-
The vocabulary of method names: the verbs that open a name, and the phrases that end a segment and
say how its field is compared.
-/
import QueryMethods.Pattern
namespace QueryMethods.Name

/-- What a query is asked for. -/
inductive Subject where
  | find | count | existence
  deriving DecidableEq

/-- The name of a subject in error messages. -/
def Subject.name : Subject → String
  | .find => "find"
  | .count => "count"
  | .existence => "exists"

/-- The verbs that may open a name, in lowercase. -/
def verbs : List (String × Subject) :=
  [("find", .find), ("read", .find), ("get", .find), ("query", .find), ("search", .find),
    ("stream", .find), ("count", .count), ("exists", .existence)]

/-- The operators of a segment, as they are said in a name. -/
inductive Keyword where
  | equal | not | greaterThan | greaterEqual | lessThan | lessEqual | between | oneOf | notOneOf
  | like | notLike
  | matching (kind : MatchKind)
  deriving DecidableEq

namespace Keyword

/-- The number of arguments that a segment with the keyword takes. -/
def arity : Keyword → Nat
  | .between => 2
  | _ => 1

/-- The phrases and their keywords. A phrase stands before every phrase that it ends in, so the
first phrase that fits is the longest. -/
def phrases : List (List String × Keyword) :=
  [(["greater", "than", "equal"], .greaterEqual),
    (["less", "than", "equal"], .lessEqual),
    (["greater", "than"], .greaterThan),
    (["less", "than"], .lessThan),
    (["not", "in"], .notOneOf),
    (["not", "like"], .notLike),
    (["starting", "with"], .matching .startsWith),
    (["starts", "with"], .matching .startsWith),
    (["ending", "with"], .matching .endsWith),
    (["ends", "with"], .matching .endsWith),
    (["containing"], .matching .contains),
    (["contains"], .matching .contains),
    (["between"], .between),
    (["after"], .greaterThan),
    (["before"], .lessThan),
    (["like"], .like),
    (["in"], .oneOf),
    (["not"], .not),
    (["equals"], .equal),
    (["is"], .equal)]

/-- The first word of the keyword's first phrase. -/
def head (k : Keyword) : String :=
  ((phrases.find? (·.2 == k)).bind (·.1.head?)).getD "?"

end Keyword

end QueryMethods.Name
