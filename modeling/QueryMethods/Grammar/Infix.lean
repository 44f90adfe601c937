/-
The grammars that write comparisons between field and value: two over a variable, two with question
marks, and the two relational ones.
-/
import QueryMethods.Grammar.Basic
import QueryMethods.Text.Quoted
namespace QueryMethods.Grammar

/-! ## Over a variable -/

/-- A field of what a variable stands for. -/
def member (var field : String) : String :=
  var ++ "." ++ field

/-- Equality is a double sign and a range its two bounds in parentheses. -/
def atNamed (var : String) : Grammar where
  dialect := .atNamed
  column field := [.text (member var field)]
  symbol
    | .equal => "=="
    | op => op.symbol
  special
    | ⟨field, .between, .range lo hi⟩ =>
      some (.ok [.text ("(" ++ member var field ++ " >= "), low field lo,
        .text (" AND " ++ member var field ++ " <= "), high field hi, .text ")"])
    | _ => none

/-- Patterns are regular expressions and a range is a chain of two comparisons. -/
def dollarNamed (var : String) : Grammar where
  dialect := .dollarNamed
  patterns := .anchored
  column field := [.text (member var field)]
  symbol
    | .like => "=~"
    | op => op.symbol
  special
    | ⟨field, .between, .range lo hi⟩ =>
      some (.ok [low field lo, .text (" <= " ++ member var field ++ " <= "), high field hi])
    | _ => none

/-! ## Question marks -/

/-- There is no disjunction and no negation; a range is its two bounds. -/
def driverPositional : Grammar where
  dialect := .driverPositional
  allowsJunction j := j == .and
  allowsNegation := false
  special
    | ⟨field, .between, .range lo hi⟩ =>
      some (.ok [.text (field ++ " >= "), low field lo, .text (" AND " ++ field ++ " <= "),
        high field hi])
    | _ => none

/-- The slots of a list's items with commas between them. -/
def itemSlots (field : String) (items : List Value) : Template :=
  Template.separated ", " (items.map fun v => [.slot field v])

/-- Attributes are quoted, patterns are unknown, and lists are written out. -/
def expressionPositional : Grammar where
  dialect := .expressionPositional
  allows op := op != .like
  column field := [.text (Text.doubledQuoted field)]
  special
    | ⟨field, .oneOf, .value v⟩ => some do
      let items ← v.requireList field
      return .text (Text.doubledQuoted field ++ " IN [") :: itemSlots field items ++ [.text "]"]
    | _ => none

/-! ## Relational text -/

/-- A named list is one parameter that the driver spreads. -/
def relationalNamed : Grammar where
  dialect := .relationalNamed
  special
    | ⟨field, .oneOf, .value v⟩ => some do
      let _ ← v.requireItems field
      return [.text (field ++ " IN ("), .slot field v, .text ")"]
    | _ => none

/-- Each item of a list has a question mark of its own. -/
def relationalPositional : Grammar where
  dialect := .relationalPositional
  special
    | ⟨field, .oneOf, .value v⟩ => some do
      let items ← v.requireItems field
      return .text (field ++ " IN (") :: itemSlots field items ++ [.text ")"]
    | _ => none

end QueryMethods.Grammar
