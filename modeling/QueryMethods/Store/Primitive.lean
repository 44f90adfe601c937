/-
The primitives that every store has under a name of its own.
-/
namespace QueryMethods

/-- The operations on records that need no query. -/
inductive Primitive where
  | save | deleteById | delete | deleteAll | findById | findAll | existsById | count
  deriving DecidableEq

namespace Primitive

/-- Every primitive once. -/
def all : List Primitive :=
  [.save, .deleteById, .delete, .deleteAll, .findById, .findAll, .existsById, .count]

/-- The name in camel style. -/
def name : Primitive → String
  | .save => "save"
  | .deleteById => "deleteById"
  | .delete => "delete"
  | .deleteAll => "deleteAll"
  | .findById => "findById"
  | .findAll => "findAll"
  | .existsById => "existsById"
  | .count => "count"

/-- The words of the name, in lowercase. -/
def words : Primitive → List String
  | .save => ["save"]
  | .deleteById => ["delete", "by", "id"]
  | .delete => ["delete"]
  | .deleteAll => ["delete", "all"]
  | .findById => ["find", "by", "id"]
  | .findAll => ["find", "all"]
  | .existsById => ["exists", "by", "id"]
  | .count => ["count"]

/-- The number of arguments: the record or the identifier, or none. -/
def arity : Primitive → Nat
  | .deleteAll | .findAll | .count => 0
  | _ => 1

end Primitive

end QueryMethods
