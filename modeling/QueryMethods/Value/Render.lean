/-
The text of a value, as filters show it: strings and dates between single quotes, lists in
brackets, maps in braces with their keys bare.
-/
import QueryMethods.Decimal.Shortest
import QueryMethods.Text.Quoted
import QueryMethods.Value.Basic
namespace QueryMethods.Value

mutual

/-- A value as it is shown to readers. -/
def render : Value → String
  | .null => "null"
  | .bool true => "true"
  | .bool false => "false"
  | .int n => toString n.toInt
  | .float x => x.render
  | .str s => Text.singleQuoted s
  | .date d => "'" ++ d.render ++ "'"
  | .list items => "[" ++ ", ".intercalate (renderItems items) ++ "]"
  | .map entries => "\x7b" ++ ", ".intercalate (renderEntries entries) ++ "\x7d"

/-- The items of a list as they are shown. -/
def renderItems : List Value → List String
  | [] => []
  | v :: r => render v :: renderItems r

/-- The entries of a map as they are shown, each key before its value. -/
def renderEntries : List (String × Value) → List String
  | [] => []
  | (k, v) :: r => (k ++ ": " ++ render v) :: renderEntries r

end

end QueryMethods.Value
