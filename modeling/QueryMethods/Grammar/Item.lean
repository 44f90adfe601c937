/-
The grammar of item stores. Every column stands as an alias, segment by segment of its path, and
patterns are said by the two functions that these stores have.
-/
import QueryMethods.Grammar.Infix
namespace QueryMethods

/-! ## Patterns as functions -/

/-- What an item store can look for in a text. -/
inductive TextTest where
  | equals (text : String)
  | beginsWith (text : String)
  | contains (text : String)
  deriving DecidableEq

namespace TextTest

/-- Whether there is no wildcard in a text. -/
def isPlain (s : List Char) : Bool :=
  s.all fun c => c != '%' && c != '_'

/-- A text that is not empty and has no wildcard, followed by one percent sign. -/
def beforePercent? (s : List Char) : Option String :=
  match s.getLast? with
  | some '%' =>
    if !s.dropLast.isEmpty && isPlain s.dropLast then some (String.ofList s.dropLast) else none
  | _ => none

/-- The test that a pattern stands for, where there is one. -/
def ofPattern? (pattern : String) : Option TextTest :=
  let s := pattern.toList
  if isPlain s then some (.equals pattern)
  else match s with
    | '%' :: r => .contains <$> beforePercent? r
    | _ => .beginsWith <$> beforePercent? s

end TextTest

namespace Grammar

/-- The path of a column, every segment aliased. -/
def aliasPath (field : String) : Template :=
  Template.separated "." ((field.toList.splitOn '.').map fun s => [.aliased (String.ofList s)])

/-- The test as an expression over the aliased column. -/
def textTest (field : String) : TextTest → Template
  | .equals s => aliasPath field ++ [.text " = ", .slot field (.str s)]
  | .beginsWith s =>
    .text "begins_with(" :: aliasPath field ++ [.text ", ", .slot field (.str s), .text ")"]
  | .contains s =>
    .text "contains(" :: aliasPath field ++ [.text ", ", .slot field (.str s), .text ")"]

/-- Columns are aliased, lists are written out, and a pattern is an equality or one of two functions. -/
def itemExpression : Grammar where
  dialect := .itemExpression
  column := aliasPath
  special
    | ⟨field, .oneOf, .value v⟩ => some do
      let items ← v.requireItems field
      return aliasPath field ++ .text " IN (" :: itemSlots field items ++ [.text ")"]
    | ⟨field, .like, .value v⟩ => some do
      match TextTest.ofPattern? (← v.pattern .native field) with
      | some test => return textTest field test
      | none => throw (.unsupported (.operator .like) .itemExpression)
    | _ => none

end Grammar

end QueryMethods
