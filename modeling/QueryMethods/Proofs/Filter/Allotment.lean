/-
The names in a filled template: slots are named one after the other and never twice, and each column
of an item store's filter has an alias of its own, so both tables can be read backwards.
-/
import QueryMethods.Filter.Marking
import QueryMethods.Proofs.Entries
import QueryMethods.Proofs.Placeholder

namespace QueryMethods

/-! ## Slots -/

namespace Template

theorem slotNames_allot (t : Template) : ∀ taken,
    (t.allot Placeholder.fresh taken).slots.map Prod.fst =
      Placeholder.assign taken (t.slots.map Prod.fst) := by
  induction t with
  | nil => intro taken; rfl
  | cons p t ih => intro taken; cases p <;> simp [allot, Placeholder.assign, ih]

theorem columns_allot (choose : List String → String → String) (t : Template) : ∀ taken,
    (t.allot choose taken).columns = t.columns := by
  induction t with
  | nil => intro taken; rfl
  | cons p t ih => intro taken; cases p <;> simp [allot, ih]

theorem allot_text (choose : List String → String → String) (taken : List String) (s : String)
    (t : Template) : allot choose taken (.text s :: t) = .text s :: t.allot choose taken := rfl

/-- What comes later is named after the names that came before it. -/
theorem allot_append (choose : List String → String → String) (t u : Template) : ∀ taken,
    (t ++ u).allot choose taken = t.allot choose taken ++
      u.allot choose (taken ++ (t.allot choose taken).slots.map Prod.fst) := by
  induction t with
  | nil =>
    intro taken
    show _ = u.allot choose (taken ++ [])
    rw [List.append_nil]
    rfl
  | cons p t ih =>
    intro taken
    cases p with
    | text s => exact congrArg _ (ih taken)
    | aliased column => exact congrArg _ (ih taken)
    | slot hint v =>
      rw [List.cons_append, allot, ih, List.append_assoc]
      rfl

theorem mem_slots {t : Template} {name : String} {v : Value} (h : .slot name v ∈ t) :
    (name, v) ∈ t.slots :=
  List.mem_filterMap.2 ⟨_, h, rfl⟩

theorem mem_columns {t : Template} {column : String} (h : .aliased column ∈ t) :
    column ∈ t.columns :=
  List.mem_filterMap.2 ⟨_, h, rfl⟩

theorem nodup_slotNames (t : Template) (taken : List String) :
    ((t.allot Placeholder.fresh taken).slots.map Prod.fst).Nodup := by
  rw [slotNames_allot]
  exact Placeholder.nodup_assign _ _

theorem isIdentifier_of_mem_slotNames {t : Template} {taken : List String} {name : String}
    (h : name ∈ (t.allot Placeholder.fresh taken).slots.map Prod.fst) :
    Placeholder.IsIdentifier name := by
  rw [slotNames_allot] at h
  exact Placeholder.isIdentifier_of_mem_assign h

/-- The name of a slot is made of name characters. -/
theorem isNameChar_of_mem_slots {t : Template} {taken : List String} {name : String} {v : Value}
    (h : (name, v) ∈ (t.allot Placeholder.fresh taken).slots) :
    ∀ c ∈ name.toList, Params.isNameChar c :=
  (isIdentifier_of_mem_slotNames (List.mem_map.2 ⟨_, h, rfl⟩)).chars

end Template

/-! ## Prefixed names -/

theorem nodup_map_append (sigil : String) {names : List String} (h : names.Nodup) :
    (names.map (sigil ++ ·)).Nodup := by
  refine List.pairwise_map.2 (List.Pairwise.imp (fun hne heq => hne ?_) h)
  have hlist := congrArg String.toList heq
  rw [String.toList_append, String.toList_append] at hlist
  exact String.toList_inj.1 (List.append_cancel_left hlist)

/-! ## Aliases -/

namespace Marking

/-- The columns in order of first appearance are the keys of a map in which all are inserted. -/
theorem nodup_eraseDups (columns : List String) : columns.eraseDups.Nodup := by
  have hkeys := Entries.nodup_keys_ofList (columns.map fun column => (column, ()))
  rw [Entries.keys_ofList, List.map_map] at hkeys
  simpa [Function.comp_def] using hkeys

/-- The aliases of columns, without what is before their names. -/
def aliasNames (columns : List String) : List String :=
  Placeholder.assign [] columns.eraseDups

theorem length_aliasNames (columns : List String) :
    (aliasNames columns).length = columns.eraseDups.length :=
  Placeholder.length_assign _ _

theorem keys_aliases (columns : List String) : (aliases columns).keys = columns.eraseDups := by
  apply List.map_fst_zip
  rw [List.length_map]
  exact Nat.le_of_eq (length_aliasNames columns).symm

theorem values_aliases (columns : List String) :
    (aliases columns).map Prod.snd = (aliasNames columns).map ("#" ++ ·) := by
  apply List.map_snd_zip
  rw [List.length_map]
  exact Nat.le_of_eq (length_aliasNames columns)

/-- The table of columns that is read by aliases has no alias twice. -/
theorem nodup_swapped (columns : List String) :
    (Entries.keys ((aliases columns).map fun (column, name) => (name, column))).Nodup := by
  have hkeys : Entries.keys ((aliases columns).map fun (column, name) => (name, column)) =
      (aliases columns).map Prod.snd := by
    rw [Entries.keys, List.map_map]
    rfl
  rw [hkeys, values_aliases]
  exact nodup_map_append "#" (Placeholder.nodup_assign _ _)

/-- A column has an alias, made of name characters, under which the column is found again. -/
theorem alias_spec {columns : List String} {column : String} (h : column ∈ columns) :
    ∃ name, (aliases columns).lookup column = some ("#" ++ name) ∧
      (∀ c ∈ name.toList, Params.isNameChar c) ∧
        ((aliases columns).map fun (column, name) => (name, column)).lookup ("#" ++ name) =
          some column := by
  have hkey : column ∈ (aliases columns).keys := by
    rw [keys_aliases]
    exact List.mem_eraseDups.2 h
  obtain ⟨⟨column', text⟩, hmem, rfl⟩ := List.mem_map.1 hkey
  have hvalue : text ∈ (aliases columns).map Prod.snd := List.mem_map.2 ⟨_, hmem, rfl⟩
  rw [values_aliases] at hvalue
  obtain ⟨name, hname, rfl⟩ := List.mem_map.1 hvalue
  -- The table has no column twice and no alias twice, so it can be looked up in either direction.
  refine ⟨name, Entries.lookup_of_mem ?_ hmem, Placeholder.isNameChar_of_mem_assign hname,
    Entries.lookup_of_mem (nodup_swapped columns) (List.mem_map.2 ⟨_, hmem, rfl⟩)⟩
  rw [keys_aliases]
  exact nodup_eraseDups columns

/-! ## Filled templates -/

/-- No name is given twice, so each value that is inserted has an entry of its own. -/
theorem fill_named (sigil : String) (t : Template) (projection : List Template) :
    fill (.named sigil) t projection =
      .text ((t.allot Placeholder.fresh []).render (sigil ++ ·) id)
        (.named (t.allot Placeholder.fresh []).slots) := by
  simp only [fill, Entries.ofList_of_nodup (Template.nodup_slotNames t [])]

theorem fill_tables (t : Template) (projection : List Template) :
    fill .tables t projection =
      let table := aliases (t.columns ++ projection.flatMap Template.columns)
      let aliasOf column := (table.lookup column).getD column
      .item {
        filter := (t.allot Placeholder.fresh []).render (":" ++ ·) aliasOf
        names := table.map fun (column, name) => (name, column)
        values := (t.allot Placeholder.fresh []).slots.map fun (name, v) => (":" ++ name, v)
        projection := if projection.isEmpty then none
          else some (", ".intercalate (projection.map (Template.render id aliasOf))) } := by
  have hvalues : (Entries.keys ((t.allot Placeholder.fresh []).slots.map fun (name, v) =>
      (":" ++ name, v))).Nodup := by
    have hnames := nodup_map_append ":" (Template.nodup_slotNames t [])
    simpa [Entries.keys, Function.comp_def] using hnames
  simp only [fill, Entries.ofList_of_nodup hvalues, Entries.ofList_of_nodup (nodup_swapped _)]

end Marking

end QueryMethods
