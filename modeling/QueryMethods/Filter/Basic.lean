/-
Filters: what a condition becomes for a store, a query text with parameters or, for item stores, a
filter with tables of aliases and values.
-/
import QueryMethods.Value.Render
namespace QueryMethods

/-- Values that go with a query text, by name or by position. -/
inductive Params where
  | named (entries : Entries Value)
  | positional (values : List Value)

namespace Params

/-- The number of values. -/
def size : Params → Nat
  | .named entries => entries.length
  | .positional values => values.length

/-- Whether there is no value. -/
def isEmpty (p : Params) : Bool :=
  p.size == 0

/-- The value under a name, which positional parameters lack. -/
def get? : Params → String → Option Value
  | .named entries, name => entries.lookup name
  | .positional _, _ => none

end Params

/-- A filter for item stores. Columns stand in it as aliases and values as tokens; without a
projection all attributes are selected. -/
structure ItemFilter where
  filter : String
  names : Entries String
  values : Entries Value
  projection : Option String

/-- The native form of a condition: a query text with its parameters, or the filter of an item store. -/
inductive Filter where
  | text (query : String) (params : Params)
  | item (filter : ItemFilter)

namespace Filter

/-- The text of the filter without its parameters. -/
def queryText : Filter → String
  | .text query _ => query
  | .item filter => filter.filter

/-- A part of a rendered filter, under its name. -/
def bracketed (name text : String) : String :=
  " [" ++ name ++ "=" ++ text ++ "]"

/-- The whole filter on one line, as reports show it. -/
def render : Filter → String
  | .text query (.named entries) =>
    query ++ String.join (entries.map fun (name, v) => bracketed name v.render)
  | .text query (.positional values) =>
    query ++ String.join (values.zipIdx.map fun (v, i) => bracketed (toString i) v.render)
  | .item f =>
    f.filter ++ (f.projection.map (" PROJECT " ++ ·)).getD ""
      ++ String.join (f.names.map fun (name, column) => bracketed name column)
      ++ String.join (f.values.map fun (token, v) => bracketed token v.render)

end Filter

end QueryMethods
