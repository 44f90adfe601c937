/-
Inline rendering: the named references of a query string give way to literals in its own syntax.
One pass over the text finds them, so a value never takes part in finding references; whether one
stands in a regular expression is seen from what has been written before it.
-/
import QueryMethods.Filter.Basic
namespace QueryMethods

/-! ## Literals -/

namespace Value

mutual

/-- A value in query-string syntax: texts and dates as phrases, lists as alternatives, maps as the
phrase of their text. -/
def literal : Value → String
  | .str s => Text.phrase s
  | .date d => Text.phrase d.render
  | .list items => "(" ++ " OR ".intercalate (literals items) ++ ")"
  | .map entries => Text.phrase (Value.map entries).render
  | v => v.render

/-- The literals of the items of a list. -/
def literals : List Value → List String
  | [] => []
  | v :: r => literal v :: literals r

end

/-- A value between the slashes of a regular expression: texts go in bare, all else as a literal. -/
def regexLiteral : Value → String
  | .str s => Text.regexBody s
  | v => v.literal

end Value

/-! ## References -/

namespace Params

/-- The characters of a reference's name: letters, digits and the underscore, all of them ASCII. -/
def isNameChar (c : Char) : Bool :=
  c.isAlphanum || c == '_'

/-- What a reference gives way to. A name without an entry stays as it is. -/
def reference (entries : Entries Value) (inRegex : Bool) (name : List Char) : List Char :=
  match if name.isEmpty then none else entries.lookup (String.ofList name) with
  | some v => (if inRegex then v.regexLiteral else v.literal).toList
  | none => '@' :: name

/-- Replaces the references of a text, given what has been written before it, the last character in
front. A reference is an at sign and the longest name after it; it stands in a regular expression if
a slash was written right before it and one comes after its name. -/
def inlineAfter (entries : Entries Value) (written : List Char) : List Char → List Char
  | [] => written.reverse
  | c :: r =>
    if c = '@' then
      let name := r.takeWhile isNameChar
      let rest := r.dropWhile isNameChar
      let inRegex := written.head? == some '/' && rest.head? == some '/'
      inlineAfter entries ((reference entries inRegex name).reverse ++ written) rest
    else inlineAfter entries (c :: written) r
termination_by s => s.length
decreasing_by
  · have := (List.dropWhile_sublist (l := r) isNameChar).length_le
    simp only [List.length_cons]
    omega
  · simp

/-- The text with its references replaced; positional parameters have none. -/
def spliceInto (p : Params) (text : String) : String :=
  match p with
  | .named entries => String.ofList (inlineAfter entries [] text.toList)
  | .positional _ => text

end Params

end QueryMethods
