/-
Outlines: a template with its values forgotten. What the text of a filter says, how its slots are
called and how many there are depends on the outline alone, so two templates with one outline make
filters that differ at most in the values they carry.
-/
import QueryMethods.Proofs.Filter.Allotment

namespace QueryMethods

/-- A piece whose value is forgotten. -/
def Piece.blank : Piece → Piece
  | .slot name _ => .slot name .null
  | p => p

namespace Template

/-- A template without its values. -/
def outline (t : Template) : Template := t.map Piece.blank

/-! ## Building -/

@[simp] theorem outline_nil : outline [] = [] := rfl

@[simp] theorem outline_cons (p : Piece) (t : Template) : outline (p :: t) = p.blank :: outline t := rfl

@[simp] theorem outline_append (t u : Template) : outline (t ++ u) = outline t ++ outline u :=
  List.map_append

theorem outline_separated (separator : String) (parts : List Template) :
    outline (separated separator parts) = separated separator (parts.map outline) := by
  unfold separated
  induction parts with
  | nil => rfl
  | cons t parts ih =>
    cases parts with
    | nil => simp [List.intercalate]
    | cons u parts =>
      rw [List.intercalate_cons_cons, outline_append, outline_append, ih]
      simp [List.intercalate_cons_cons, Piece.blank]

theorem outline_grouped (parentheses : Bool) (t : Template) :
    outline (grouped parentheses t) = grouped parentheses (outline t) := by
  cases parentheses <;> simp [grouped, Piece.blank]

/-! ## Reading -/

theorem columns_outline (t : Template) : t.outline.columns = t.columns := by
  induction t with
  | nil => rfl
  | cons p t ih => cases p <;> simp_all [columns, Piece.blank]

theorem slots_outline (t : Template) : t.outline.slots.map Prod.fst = t.slots.map Prod.fst := by
  induction t with
  | nil => rfl
  | cons p t ih => cases p <;> simp_all [slots, Piece.blank]

theorem render_outline (slot column : String → String) (t : Template) :
    t.outline.render slot column = t.render slot column := by
  unfold render outline
  rw [List.map_map]
  congr 1
  apply List.map_congr_left
  intro p _
  cases p <;> rfl

/-- Names are chosen from hints alone. -/
theorem allot_outline (choose : List String → String → String) (t : Template) :
    ∀ taken, t.outline.allot choose taken = (t.allot choose taken).outline := by
  induction t with
  | nil => intro taken; rfl
  | cons p t ih => intro taken; cases p <;> simp [allot, Piece.blank, ih]

/-! ## Templates with one outline -/

section Same

variable {t u : Template} (h : t.outline = u.outline)
include h

theorem columns_eq : t.columns = u.columns := by
  rw [← columns_outline t, h, columns_outline]

theorem render_eq (slot column : String → String) : t.render slot column = u.render slot column := by
  rw [← render_outline slot column t, h, render_outline]

theorem slotNames_eq : t.slots.map Prod.fst = u.slots.map Prod.fst := by
  rw [← slots_outline t, h, slots_outline]

theorem outline_allot_eq (choose : List String → String → String) (taken : List String) :
    (t.allot choose taken).outline = (u.allot choose taken).outline := by
  rw [← allot_outline choose t, h, allot_outline]

end Same

end Template

/-! ## Filters -/

/-- Filters that differ at most in the values they carry: they have one text, the same tables and
the same keys in the same order, and as many values. -/
def Filter.Agrees : Filter → Filter → Prop
  | .text query (.named m), .text query' (.named m') => query = query' ∧ m.keys = m'.keys
  | .text query (.positional vs), .text query' (.positional vs') =>
    query = query' ∧ vs.length = vs'.length
  | .item f, .item f' =>
    f.filter = f'.filter ∧ f.names = f'.names ∧ f.values.keys = f'.values.keys ∧
      f.projection = f'.projection
  | _, _ => False

/-- A marking fills templates of one outline in alike. -/
theorem Marking.agrees_fill (m : Marking) {t u : Template} (h : t.outline = u.outline)
    (projection : List Template) : (m.fill t projection).Agrees (m.fill u projection) := by
  have hallot := Template.outline_allot_eq h Placeholder.fresh []
  cases m with
  | named sigil =>
    rw [fill_named, fill_named]
    exact ⟨Template.render_eq hallot _ _, Template.slotNames_eq hallot⟩
  | positional =>
    refine ⟨Template.render_eq h _ _, ?_⟩
    have := congrArg List.length (Template.slotNames_eq h)
    simpa using this
  | tables =>
    rw [fill_tables, fill_tables]
    simp only [Filter.Agrees, Template.columns_eq h]
    refine ⟨Template.render_eq hallot _ _, trivial, ?_, trivial⟩
    have := congrArg (List.map (":" ++ ·)) (Template.slotNames_eq hallot)
    simpa [Entries.keys, Function.comp_def] using this

end QueryMethods
