/-
Rows: a cursor that is held until it runs dry, fails or is given up, and closed at that moment.
-/
import QueryMethods.Failure
namespace QueryMethods

/-- The rows of a request as they are read, with the context for their failures. -/
structure Rows (α : Type) where
  cursor : Cursor α
  isOpen : Bool
  context : QueryContext

namespace Rows

variable {α : Type}

/-- The rows of a cursor that nobody has read from. -/
def ofCursor (cursor : Cursor α) (context : QueryContext) : Rows α := ⟨cursor, true, context⟩

/-- No rows, and no cursor to close. -/
def empty (context : QueryContext) : Rows α := ⟨⟨[], []⟩, false, context⟩

/-- Closes the cursor, unless it has been closed before. -/
def close (r : Rows α) : Rows α :=
  if r.isOpen then { r with cursor := r.cursor.close, isOpen := false } else r

/-- The next row, if there is one. The end and a failure close the cursor, after which there is
nothing more. -/
def next (r : Rows α) : Except Failure (Option α) × Rows α :=
  if r.isOpen then
    let (answer, cursor) := r.cursor.next
    let read := { r with cursor }
    match answer with
    | .row a => (.ok (some a), read)
    | .failure e => (.error (.store r.context e), read.close)
    | .finished => (.ok none, read.close)
  else (.ok none, r)

theorem length_next {r : Rows α} {a : α} (h : r.next.1 = .ok (some a)) :
    r.next.2.cursor.script.length < r.cursor.script.length := by
  unfold next at h ⊢
  cases hopen : r.isOpen with
  | false => simp [hopen] at h
  | true =>
    unfold Cursor.next at h ⊢
    rcases hs : r.cursor.script with _ | ⟨_ | _ | _, rest⟩ <;> simp [hopen, hs] at h ⊢

/-- All rows that are left, or the first failure. -/
def collect (r : Rows α) : Except Failure (List α) × Rows α :=
  match _h : r.next.1 with
  | .error e => (.error e, r.next.2)
  | .ok none => (.ok [], r.next.2)
  | .ok (some a) =>
    let others := collect r.next.2
    ((a :: ·) <$> others.1, others.2)
termination_by r.cursor.script.length
decreasing_by exact length_next _h

end Rows

end QueryMethods
