/-
Markings: how a query text refers to its values. Filling a template in names its slots and gives
the finished filter.
-/
import QueryMethods.Filter.Basic
import QueryMethods.Placeholder
import QueryMethods.Template
namespace QueryMethods

/-- How the text of a filter refers to values and columns. -/
inductive Marking where
  /-- A placeholder name after a sigil; the name is the key of the value. -/
  | named (sigil : String)
  /-- A question mark for each value. -/
  | positional
  /-- Aliased columns and value tokens in tables of their own. -/
  | tables

namespace Marking

/-- The aliases of columns, each column with one alias, in order of first appearance. -/
def aliases (columns : List String) : Entries String :=
  columns.eraseDups.zip ((Placeholder.assign [] columns.eraseDups).map ("#" ++ ·))

/-- The filter that a template makes. Its values, and for item stores its aliases, are inserted into maps
in the order of the text. The columns of a projection are aliased after those of the template; only item
stores take them. -/
def fill (m : Marking) (t : Template) (projection : List Template) : Filter :=
  let allotted := t.allot Placeholder.fresh []
  match m with
  | .named sigil => .text (allotted.render (sigil ++ ·) id) (.named (Entries.ofList allotted.slots))
  | .positional => .text (t.render (fun _ => "?") id) (.positional (t.slots.map Prod.snd))
  | .tables =>
    let table := aliases (t.columns ++ projection.flatMap Template.columns)
    let aliasOf column := (table.lookup column).getD column
    .item {
      filter := allotted.render (":" ++ ·) aliasOf
      names := Entries.ofList (table.map fun (column, name) => (name, column))
      values := Entries.ofList (allotted.slots.map fun (name, v) => (":" ++ name, v))
      projection := if projection.isEmpty then none
        else some (", ".intercalate (projection.map (Template.render id aliasOf))) }

end Marking

end QueryMethods
