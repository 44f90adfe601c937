/-
Shapes: what the rows of a store become under the declared return shape. Whatever the shape, and
whether shaping succeeds or not, the cursor is closed once; only a lazy sequence keeps it.
-/
import QueryMethods.Result.Rows
namespace QueryMethods

/-- A result in its declared shape. -/
inductive Shaped (α : Type) where
  | nothing
  | single (a : α)
  | nullable (a : Option α)
  | list (rows : List α)
  /-- Distinct rows in the order in which they first came. -/
  | set (rows : List α)
  | lazy (rows : Rows α)
  | count (n : UInt64)
  | existence (found : Bool)

/-- A result on one line, given the text of a row. -/
def Shaped.summary {α : Type} (row : α → String) : Shaped α → String
  | .nothing => "Unit"
  | .single a => "Single(" ++ row a ++ ")"
  | .nullable none => "Optional(None)"
  | .nullable (some a) => "Optional(Some(" ++ row a ++ "))"
  | .list rows => "List([" ++ ", ".intercalate (rows.map row) ++ "])"
  | .set rows => "Set([" ++ ", ".intercalate (rows.map row) ++ "])"
  | .lazy _ => "Lazy(..)"
  | .count n => "Count(" ++ toString n ++ ")"
  | .existence found => "Exists(" ++ toString found ++ ")"

variable {α : Type}

/-- The only row, if there is one; never reads more than two. -/
def Rows.atMostOne (r : Rows α) : Except Failure (Option α) × Rows α :=
  match r.next with
  | (.ok (some a), r) =>
    match r.next with
    | (.ok (some _), r) => (.error (.result .ambiguous), r)
    | (.ok none, r) => (.ok (some a), r)
    | (.error e, r) => (.error e, r)
  | result => result

/-- The rows that equal no earlier one that was kept. -/
def distinct [BEq α] (rows : List α) : List α :=
  rows.foldl (fun kept a => if kept.any (· == a) then kept else kept ++ [a]) []

/-- The outcome of shaping and the rows as it leaves them. -/
structure Shaping (α : Type) where
  result : Except Failure (Shaped α)
  rows : Rows α

namespace ReturnShape

/-- Reads as many rows as the shape asks for. -/
def read [BEq α] (shape : ReturnShape) (r : Rows α) : Except Failure (Shaped α) × Rows α :=
  match shape with
  | .single =>
    let (found, r) := r.atMostOne
    (found >>= fun
      | some a => .ok (.single a)
      | none => .error (.result .notFound), r)
  | .nullableSingle => (Shaped.nullable <$> r.atMostOne.1, r.atMostOne.2)
  | .orderedList => (Shaped.list <$> r.collect.1, r.collect.2)
  | .uniqueSet => ((fun rows => .set (distinct rows)) <$> r.collect.1, r.collect.2)
  | .count => ((fun rows => .count rows.length.toUInt64) <$> r.collect.1, r.collect.2)
  | .existence => ((fun found => .existence found.isSome) <$> r.next.1, r.next.2)
  | .lazySequence => (.ok (.lazy r), r)
  | .nothing => (.ok .nothing, r)

/-- Shapes rows. What was not read to its end is closed, except for a lazy sequence. -/
def ofRows [BEq α] (shape : ReturnShape) (r : Rows α) : Shaping α :=
  let (result, left) := shape.read r
  ⟨result, if shape = .lazySequence then left else left.close⟩

/-- Shapes what a store answers. A count stands for rows only where nothing but their number
matters. -/
def ofReply [BEq α] (shape : ReturnShape) (reply : Reply α) (context : QueryContext) : Shaping α :=
  match reply with
  | .rows cursor => shape.ofRows (.ofCursor cursor context)
  | .done => shape.ofRows (.empty context)
  | .count n =>
    let result := match shape with
      | .count => .ok (.count n)
      | .existence => .ok (.existence (0 < n))
      | .nothing => .ok .nothing
      | shape => .error (.result (.unexpectedCount shape))
    ⟨result, .empty context⟩

end ReturnShape

end QueryMethods
