/-
Parts of templates: what stands in a template that is put together is what stands in its parts, in
their order, and its text is that of its parts.
-/
import QueryMethods.Template

namespace QueryMethods.Template

/-! ## Values -/

/-- The values in the slots from left to right. -/
def values (t : Template) : List Value :=
  t.slots.map Prod.snd

@[simp] theorem values_nil : values [] = [] := rfl

@[simp] theorem values_text (s : String) (t : Template) : values (.text s :: t) = values t := rfl

@[simp] theorem values_aliased (column : String) (t : Template) :
    values (.aliased column :: t) = values t := rfl

@[simp] theorem values_slot (name : String) (v : Value) (t : Template) :
    values (.slot name v :: t) = v :: values t := rfl

@[simp] theorem slots_nil : slots [] = [] := rfl

@[simp] theorem slots_append (t u : Template) : slots (t ++ u) = slots t ++ slots u :=
  List.filterMap_append

@[simp] theorem values_append (t u : Template) : values (t ++ u) = values t ++ values u := by
  simp [values, slots]

@[simp] theorem columns_nil : columns [] = [] := rfl

@[simp] theorem columns_append (t u : Template) : columns (t ++ u) = columns t ++ columns u := by
  simp [columns]

theorem slots_grouped (parentheses : Bool) (t : Template) :
    slots (grouped parentheses t) = slots t := by
  cases parentheses <;> simp [grouped, slots]

theorem columns_grouped (parentheses : Bool) (t : Template) :
    columns (grouped parentheses t) = columns t := by
  cases parentheses <;> simp [grouped]

/-- What is read of templates with texts between them is what is read of each, if a text counts for
nothing. -/
theorem flatMap_separated {α : Type} {f : Template → List α} (hnil : f [] = [])
    (happend : ∀ t s u, f (t ++ .text s :: u) = f t ++ f u) (separator : String)
    (parts : List Template) : f (separated separator parts) = parts.flatMap f := by
  induction parts with
  | nil => exact hnil
  | cons t parts ih =>
    cases parts with
    | nil => rw [separated_singleton, List.flatMap_singleton]
    | cons u parts => rw [separated_cons_cons, happend, ih, ← List.flatMap_cons]

theorem slots_separated (separator : String) (parts : List Template) :
    slots (separated separator parts) = parts.flatMap slots :=
  flatMap_separated rfl (fun t s u => by simp) separator parts

theorem values_separated (separator : String) (parts : List Template) :
    values (separated separator parts) = parts.flatMap values := by
  rw [values, slots_separated, List.map_flatMap]
  rfl

theorem columns_separated (separator : String) (parts : List Template) :
    columns (separated separator parts) = parts.flatMap columns :=
  flatMap_separated rfl (fun t s u => by simp) separator parts

/-- The slots of a list carry its items. -/
theorem values_slots (separator hint : String) (items : List Value) :
    values (separated separator (items.map fun v => [.slot hint v])) = items := by
  rw [values_separated, List.flatMap_map]
  exact List.flatMap_singleton' items

/-- Naming slots leaves their values in place. -/
theorem values_allot (choose : List String → String → String) (t : Template) : ∀ taken,
    (t.allot choose taken).values = t.values := by
  induction t with
  | nil => intro taken; rfl
  | cons p t ih => intro taken; cases p <;> simp [allot, ih]

/-! ## Texts -/

variable (slot column : String → String)

theorem render_text (s : String) (t : Template) :
    render slot column (.text s :: t) = s ++ render slot column t := by
  simp [render]

theorem render_aliased (name : String) (t : Template) :
    render slot column (.aliased name :: t) = column name ++ render slot column t := by
  simp [render]

theorem render_slot (name : String) (v : Value) (t : Template) :
    render slot column (.slot name v :: t) = slot name ++ render slot column t := by
  simp [render]

theorem render_append (t u : Template) :
    render slot column (t ++ u) = render slot column t ++ render slot column u := by
  simp [render]

theorem render_separated (separator : String) (parts : List Template) :
    render slot column (separated separator parts) =
      separator.intercalate (parts.map (render slot column)) := by
  induction parts with
  | nil => rfl
  | cons t parts ih =>
    cases parts with
    | nil => rw [separated_singleton, List.map_singleton, String.intercalate_singleton]
    | cons u parts =>
      rw [separated_cons_cons, render_append, render_text, ih, List.map_cons, List.map_cons, List.map_cons,
        String.intercalate_cons_cons, String.append_assoc]

end QueryMethods.Template
