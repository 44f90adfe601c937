/-
Equality of values: kinds never mix, floats compare by the floating-point standard, lists item by
item, and maps without regard to the order of their entries.
-/
import QueryMethods.Value.Basic
namespace QueryMethods.Value

mutual

/-- Equality of values, by kind: lists item by item, maps as the same entries in any order. -/
def same : Value → Value → Bool
  | .null, .null => true
  | .bool a, .bool b => a == b
  | .int a, .int b => a == b
  | .float a, .float b => a.same b
  | .str a, .str b => a == b
  | .date a, .date b => a == b
  | .list a, .list b => sameItems a b
  | .map a, .map b => a.length == b.length && includes b a
  | _, _ => false

/-- Equality of lists, item by item. -/
def sameItems : List Value → List Value → Bool
  | [], [] => true
  | a :: r, b :: s => same a b && sameItems r s
  | _, _ => false

/-- Whether the map has, under every key of the entries, a value equal to theirs. -/
def includes (m : Entries Value) : List (String × Value) → Bool
  | [] => true
  | (k, v) :: r => (m.lookup k).any (same v) && includes m r

end

/-- Comparing values is not reflexive, since what is no number is not equal to itself. -/
instance : BEq Value := ⟨same⟩

end QueryMethods.Value
