/-
Templates: query texts whose references are still open. A piece is fixed text, a column that will
be named by an alias, or a slot for a value; what a template says is settled before any name is
chosen, and `allot` then names its slots from left to right.
-/
import QueryMethods.Value.Basic
namespace QueryMethods

/-- A text, a column under an alias or a slot for a value. -/
inductive Piece where
  | text (s : String)
  | aliased (column : String)
  /-- The name is a hint at first and, once allotted, what refers to the value. -/
  | slot (name : String) (value : Value)

/-- A query text with its columns and values still in their places. -/
abbrev Template := List Piece

namespace Template

/-! ## Building -/

/-- Templates one after the other with a text between them. -/
def separated (separator : String) (parts : List Template) : Template :=
  [Piece.text separator].intercalate parts

theorem separated_singleton (separator : String) (t : Template) : separated separator [t] = t :=
  List.intercalate_singleton

theorem separated_cons_cons (separator : String) (t u : Template) (parts : List Template) :
    separated separator (t :: u :: parts) =
      t ++ .text separator :: separated separator (u :: parts) := by
  rw [separated, List.intercalate_cons_cons, List.append_assoc]
  rfl

/-- A template between parentheses, or the template alone. -/
def grouped (parentheses : Bool) (t : Template) : Template :=
  if parentheses then .text "(" :: t ++ [.text ")"] else t

/-! ## Reading -/

/-- The aliased columns from left to right. -/
def columns (t : Template) : List String :=
  t.filterMap fun
    | .aliased column => some column
    | _ => none

/-- The slots from left to right, as names and values. -/
def slots (t : Template) : List (String × Value) :=
  t.filterMap fun
    | .slot name value => some (name, value)
    | _ => none

@[simp] theorem columns_text (s : String) (t : Template) : columns (.text s :: t) = columns t := rfl

@[simp] theorem columns_aliased (column : String) (t : Template) :
    columns (.aliased column :: t) = column :: columns t := rfl

@[simp] theorem columns_slot (name : String) (v : Value) (t : Template) :
    columns (.slot name v :: t) = columns t := rfl

@[simp] theorem slots_text (s : String) (t : Template) : slots (.text s :: t) = slots t := rfl

@[simp] theorem slots_aliased (column : String) (t : Template) :
    slots (.aliased column :: t) = slots t := rfl

@[simp] theorem slots_slot (name : String) (v : Value) (t : Template) :
    slots (.slot name v :: t) = (name, v) :: slots t := rfl

/-- Chooses each slot's name from the names chosen before it, in order, and its hint. -/
def allot (choose : List String → String → String) : List String → Template → Template
  | _, [] => []
  | chosen, .slot hint value :: r =>
    .slot (choose chosen hint) value :: allot choose (chosen ++ [choose chosen hint]) r
  | chosen, p :: r => p :: allot choose chosen r

/-- The text of a template, given how slots and aliased columns are referred to. -/
def render (slot : String → String) (column : String → String) (t : Template) : String :=
  String.join <| t.map fun
    | .text s => s
    | .aliased name => column name
    | .slot name _ => slot name

end Template

end QueryMethods
