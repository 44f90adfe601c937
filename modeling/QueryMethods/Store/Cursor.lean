/-
Cursors: forward-only sources of rows, as the script of what they will answer and the record of what
was done to them. A script may go on after a failure or after its end.
-/
namespace QueryMethods

/-- A failure that a store reports, with the texts of its causes, nearest first. -/
structure StoreError where
  message : String
  causes : List String := []
  deriving DecidableEq

/-- What a cursor answers when it is asked for a row. -/
inductive RowAnswer (α : Type) where
  | row (a : α)
  | failure (e : StoreError)
  | finished

/-- What can happen to a cursor. -/
inductive CursorEvent where
  /-- A row was asked for, and whether a row or a failure came. -/
  | asked (answered : Bool)
  | closed
  deriving DecidableEq

/-- A cursor by the answers that it has left and by what happened to it. -/
structure Cursor (α : Type) where
  script : List (RowAnswer α)
  /-- What happened so far, latest first. -/
  events : List CursorEvent := []

namespace Cursor

variable {α : Type}

/-- Asks for a row; there is none after the last answer. -/
def next (c : Cursor α) : RowAnswer α × Cursor α :=
  match c.script with
  | [] => (.finished, ⟨[], .asked false :: c.events⟩)
  | .finished :: r => (.finished, ⟨r, .asked false :: c.events⟩)
  | answer :: r => (answer, ⟨r, .asked true :: c.events⟩)

/-- Closes the cursor, which may happen more than once. -/
def close (c : Cursor α) : Cursor α :=
  { c with events := .closed :: c.events }

/-! ## Accounts -/

/-- Whether a row was asked for. -/
def isAsked : CursorEvent → Bool
  | .asked _ => true
  | .closed => false

/-- How often a row was asked for. -/
def polls (c : Cursor α) : Nat := c.events.countP isAsked

/-- How many rows and failures came. -/
def pulled (c : Cursor α) : Nat := c.events.count (.asked true)

/-- How often the cursor was closed. -/
def closes (c : Cursor α) : Nat := c.events.count .closed

end Cursor

/-- What a store answers to a request. -/
inductive Reply (α : Type) where
  | rows (cursor : Cursor α)
  /-- The store did the counting. -/
  | count (n : UInt64)
  /-- There is nothing to answer with. -/
  | done

/-- A reply in one line, without its rows. -/
def Reply.summary {α : Type} : Reply α → String
  | .rows _ => "Rows(..)"
  | .count n => "Count(" ++ toString n ++ ")"
  | .done => "Done"

end QueryMethods
