/-
Stores: what they are asked for and how they answer.
-/
import QueryMethods.Dialect
import QueryMethods.Filter.Basic
import QueryMethods.Store.Cursor
import QueryMethods.Store.Primitive
namespace QueryMethods

/-- What a store is asked. -/
inductive Request where
  /-- A primitive with its argument, if it takes one. -/
  | primitive (op : Primitive) (argument : Option Value)
  /-- A query text as it was declared. -/
  | literal (dialect : Dialect) (query : String) (params : Params)
  /-- The filter of a condition. -/
  | filter (dialect : Dialect) (filter : Filter)

/-- A store as its answers to requests, each of which may depend on the requests before it, oldest
first. -/
abbrev Store (α : Type) := List Request → Request → Except StoreError (Reply α)

end QueryMethods
