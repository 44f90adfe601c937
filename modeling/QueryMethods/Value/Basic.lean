/-
Values: the arguments of an invocation, the operands of a condition and the records handed to a
store. A map is the list of its entries in insertion order; `Value.ofEntries` gives one without
repeated keys.
-/
import QueryMethods.Calendar
import QueryMethods.Decimal.Binary64
import QueryMethods.Entries
namespace QueryMethods

/-- The values of fields and arguments. -/
inductive Value where
  | null
  | bool (b : Bool)
  | int (n : Int64)
  | float (x : Binary64)
  | str (s : String)
  | date (d : CalendarDate)
  | list (items : List Value)
  | map (entries : List (String × Value))

/-- The kinds of values that operand errors tell apart. -/
inductive Kind where
  | null | bool | int | float | string | date | list | map
  deriving DecidableEq

/-- The name of a kind in error messages. -/
def Kind.name : Kind → String
  | .null => "null"
  | .bool => "bool"
  | .int => "int"
  | .float => "float"
  | .string => "string"
  | .date => "date"
  | .list => "list"
  | .map => "map"

namespace Value

/-- The map that the entries make when they are inserted in order. -/
def ofEntries (entries : List (String × Value)) : Value :=
  .map (Entries.ofList entries)

/-- The kind of a value. -/
def kind : Value → Kind
  | .null => .null
  | .bool _ => .bool
  | .int _ => .int
  | .float _ => .float
  | .str _ => .string
  | .date _ => .date
  | .list _ => .list
  | .map _ => .map

/-- Whether a value is the null. -/
def isNull : Value → Bool
  | .null => true
  | _ => false

/-- The text of a string; other values have none. -/
def text? : Value → Option String
  | .str s => some s
  | _ => none

/-- The items of a list; other values have none. -/
def items? : Value → Option (List Value)
  | .list items => some items
  | _ => none

end Value

end QueryMethods
