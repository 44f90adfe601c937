/-
Paths in the filters of item stores. With the columns in the place of their aliases, a column with
the dots and columns after it is a path; the paths of a filter are the fields of its comparisons from
left to right, and no column has a dot of its own.
-/
import QueryMethods.Proofs.Filter.Operands
import QueryMethods.Proofs.Reading.Fields
import QueryMethods.Proofs.Separators

namespace QueryMethods

/-! ## Paths -/

namespace Symbol

/-- The symbols that a path goes on with. -/
def inPath : Symbol → Bool
  | .char c => c == '.'
  | .column _ => true
  | .value _ => false

/-- The paths in the symbols of a text. A path begins with a column and goes on for as long as there
are columns and dots. -/
def paths : List Symbol → List String
  | [] => []
  | s :: r =>
    if s.isColumn then
      String.ofList ((s :: r.takeWhile inPath).flatMap chars) :: paths (r.dropWhile inPath)
    else paths r
termination_by ss => ss.length
decreasing_by
  · have := (List.dropWhile_sublist (l := r) inPath).length_le
    simp only [List.length_cons]
    omega
  · simp

theorem paths_text (cs : List Char) (r : List Symbol) : paths (cs.map .char ++ r) = paths r := by
  induction cs with
  | nil => rfl
  | cons c cs ih =>
    rw [List.map_cons, List.cons_append, paths, ih]
    rfl

theorem paths_path {name : String} {run r : List Symbol} (hrun : ∀ s ∈ run, s.inPath)
    (hr : r.head?.all fun s => !s.inPath) :
    paths (.column name :: (run ++ r)) =
      String.ofList ((.column name :: run).flatMap chars) :: paths r := by
  -- What is after the run does not go on with the path, so the run is taken as a whole.
  have hends : r.takeWhile inPath = [] ∧ r.dropWhile inPath = r := by
    cases r with
    | nil => exact ⟨rfl, rfl⟩
    | cons s r =>
      have hs : s.inPath = false := by simpa using hr
      simp [hs]
  have hcolumn : (Symbol.column name).isColumn = true := rfl
  rw [paths, if_pos hcolumn, List.takeWhile_append_of_pos hrun, List.dropWhile_append_of_pos hrun,
    hends.1, hends.2, List.append_nil]

end Symbol

namespace Template

variable {t u : Template} {fields others : List String}

/-- With columns for their aliases, the paths in the template are these fields, whatever comes after
it. -/
def Paths (t : Template) (fields : List String) : Prop :=
  ∀ r, Symbol.paths (t.symbols ++ r) = fields ++ Symbol.paths r

theorem Paths.append (h : t.Paths fields) (hu : u.Paths others) :
    (t ++ u).Paths (fields ++ others) := by
  intro r
  rw [symbols_append, List.append_assoc, h, hu, List.append_assoc]

/-- There are no paths without columns. -/
theorem paths_nil (h : t.columns = []) : t.Paths [] := by
  intro r
  induction t with
  | nil => rfl
  | cons p t ih =>
    cases p with
    | text s =>
      rw [symbols_cons, Piece.symbols, Symbol.ofText, List.append_assoc, Symbol.paths_text]
      exact ih h
    | aliased column => cases h
    | slot name v =>
      show Symbol.paths (.value v :: (symbols t ++ r)) = _
      rw [Symbol.paths]
      exact ih h

theorem Paths.between (h : t.Paths fields) (before after : String) :
    Paths (.text before :: t ++ [.text after]) fields := by
  have hbefore : Paths [.text before] [] := paths_nil rfl
  have hafter : Paths [.text after] [] := paths_nil rfl
  rw [← List.append_nil fields]
  exact (hbefore.append h).append hafter

theorem Paths.grouped (h : t.Paths fields) (parentheses : Bool) :
    (grouped parentheses t).Paths fields := by
  cases parentheses with
  | false => exact h
  | true => exact h.between "(" ")"

theorem paths_separated (separator : String) {parts : List Template} {fields : List (List String)}
    (h : List.Forall₂ Paths parts fields) : (separated separator parts).Paths fields.flatten := by
  induction h with
  | nil => exact paths_nil rfl
  | cons hfirst hothers ih =>
    cases hothers with
    | nil =>
      rw [separated_singleton, List.flatten_singleton]
      exact hfirst
    | cons =>
      have hseparator : Paths [.text separator] [] := paths_nil rfl
      rw [separated_cons_cons, List.flatten_cons]
      exact hfirst.append (hseparator.append ih)

theorem symbols_aliasedSegments {segments : List (List Char)} (hne : segments ≠ []) :
    ∃ name run, (aliasedSegments segments).symbols = .column name :: run ∧ ∀ s ∈ run, s.inPath := by
  induction segments with
  | nil => exact absurd rfl hne
  | cons first segments ih =>
    cases segments with
    | nil => exact ⟨String.ofList first, [], rfl, nofun⟩
    | cons second segments =>
      obtain ⟨name, run, hsymbols, hrun⟩ := ih (List.cons_ne_nil second segments)
      refine ⟨String.ofList first, .char '.' :: .column name :: run, ?_, ?_⟩
      · rw [aliasedSegments_cons_cons]
        show .column _ :: .char '.' :: (aliasedSegments (second :: segments)).symbols = _
        rw [hsymbols]
      · exact List.forall_mem_cons.2 ⟨rfl, List.forall_mem_cons.2 ⟨rfl, hrun⟩⟩

/-- The path of a column ends with a text that does not begin with a dot. -/
theorem paths_aliasPath (field : String) {s : String} {c : Char} (hs : s.toList.head? = some c)
    (hc : c ≠ '.') (hu : u.columns = []) :
    Paths (Grammar.aliasPath field ++ .text s :: u) [field] := by
  have hne : field.toList.splitOn '.' ≠ [] := List.splitOn_ne_nil '.' field.toList
  have hdot : Marking.refers .tables '.' = false := rfl
  obtain ⟨-, -, -, hchars⟩ := aliasedSegments_spec hdot rfl hne
  obtain ⟨name, run, hsymbols, hrun⟩ := symbols_aliasedSegments hne
  rw [hsymbols, List.intercalate_splitOn] at hchars
  intro r
  have hrest : symbols (.text s :: u) ++ r = (s.toList.map .char ++ (symbols u ++ r)) :=
    List.append_assoc _ _ _
  have hends : (symbols (.text s :: u) ++ r).head?.all fun s => !s.inPath := by
    rw [hrest, List.head?_append, List.head?_map, hs]
    simpa [Symbol.inPath] using hc
  have hpath : symbols (Grammar.aliasPath field ++ .text s :: u) =
      .column name :: (run ++ symbols (.text s :: u)) := by
    rw [symbols_append]
    exact congrArg (· ++ symbols (.text s :: u)) hsymbols
  rw [hpath, List.cons_append, List.append_assoc, Symbol.paths_path hrun hends, hchars,
    String.ofList_toList, paths_nil (t := .text s :: u) hu]
  rfl

theorem columns_aliasPath (field : String) :
    (Grammar.aliasPath field).columns = (field.toList.splitOn '.').map String.ofList := by
  rw [Grammar.aliasPath, columns_separated, List.flatMap_map]
  exact List.flatMap_pure_eq_map _ _

theorem slots_aliasPath (field : String) : (Grammar.aliasPath field).slots = [] :=
  List.map_eq_nil_iff.1 (Grammar.values_aliasPath field)

end Template

/-! ## Comparisons -/

namespace Grammar

open Template

variable {k : Comparison} {t : Template}

/-- The template of a comparison has one path, that of its field, and a text after it that does not
begin with a dot. -/
def OnePath (field : String) (t : Template) : Prop :=
  ∃ before s after, t = before ++ (aliasPath field ++ .text s :: after) ∧
    (∃ c, s.toList.head? = some c ∧ c ≠ '.') ∧ columns before = [] ∧ columns after = []

theorem columns_itemSlots (field : String) (items : List Value) :
    (itemSlots field items).columns = [] := by
  rw [itemSlots, columns_separated, List.flatMap_map]
  exact List.flatMap_eq_nil_iff.2 fun _ _ => rfl

theorem onePath_of_plainForm (h : itemExpression.PlainForm k t) : OnePath k.field t := by
  cases h with
  | @signed field op v _ _ =>
    refine ⟨[], " " ++ op.symbol ++ " ", _, rfl, ⟨' ', ?_, by decide⟩, rfl, rfl⟩
    rw [String.append_assoc, String.toList_append]
    rfl
  | between field lo hi => exact ⟨[], " BETWEEN ", _, rfl, ⟨' ', rfl, by decide⟩, rfl, rfl⟩
  | whole field items => exact ⟨[], " IN ", _, rfl, ⟨' ', rfl, by decide⟩, rfl, rfl⟩

theorem onePath_textTest (field : String) (test : TextTest) : OnePath field (textTest field test) := by
  cases test with
  | equals s => exact ⟨[], " = ", _, rfl, ⟨' ', rfl, by decide⟩, rfl, rfl⟩
  | beginsWith s =>
    exact ⟨[.text "begins_with("], ", ", _, rfl, ⟨',', rfl, by decide⟩, rfl, rfl⟩
  | contains s => exact ⟨[.text "contains("], ", ", _, rfl, ⟨',', rfl, by decide⟩, rfl, rfl⟩

theorem onePath_comparison (h : itemExpression.comparison k = .ok t) : OnePath k.field t := by
  cases itemForms_of_comparison h with
  | plain _ _ h => exact onePath_of_plainForm h
  | list field items =>
    refine ⟨[], " IN (", itemSlots field items ++ [.text ")"], ?_, ⟨' ', rfl, by decide⟩, rfl, ?_⟩
    · rw [List.append_assoc]
      rfl
    · rw [columns_append, columns_itemSlots]
      rfl
  | pattern field v _ => exact onePath_textTest field _

variable {field : String}

theorem OnePath.paths (h : OnePath field t) : t.Paths [field] := by
  obtain ⟨before, s, after, rfl, ⟨c, hs, hc⟩, hbefore, hafter⟩ := h
  exact (paths_nil hbefore).append (paths_aliasPath field hs hc hafter)

theorem not_mem_columns_aliasPath {column : String} (h : column ∈ (aliasPath field).columns) :
    '.' ∉ column.toList := by
  rw [columns_aliasPath] at h
  obtain ⟨segment, hsegment, rfl⟩ := List.mem_map.1 h
  rw [String.toList_ofList]
  exact not_mem_of_mem_splitOn hsegment

theorem OnePath.not_mem_column (h : OnePath field t) {column : String} (hcolumn : column ∈ t.columns) :
    '.' ∉ column.toList := by
  obtain ⟨before, s, after, rfl, -, hbefore, hafter⟩ := h
  simp only [columns_append, columns_text, hbefore, hafter, List.nil_append, List.append_nil]
    at hcolumn
  exact not_mem_columns_aliasPath hcolumn

/-- A template whose paths are the fields of the comparisons, and whose columns are segments. -/
structure Pathwise (c : Condition) (t : Template) : Prop where
  paths : t.Paths (c.comparisons.map Comparison.field)
  columns : ∀ column ∈ t.columns, '.' ∉ column.toList

theorem pathwise_junction (j : Junction) (nested : Bool) {cs : List Condition} {ts : List Template}
    (h : List.Forall₂ Pathwise cs ts) : Pathwise (.junction j cs) (infixJunction j nested ts) where
  paths := by
    have hparts : List.Forall₂ Paths ts (cs.map fun c => c.comparisons.map Comparison.field) :=
      List.forall₂_map_right_iff.2 (h.imp fun _ _ hc => hc.paths).flip
    have hfields : (Condition.junction j cs).comparisons.map Comparison.field =
        (cs.map fun c => c.comparisons.map Comparison.field).flatten := by
      rw [Condition.comparisons, Condition.comparisonsAll_eq_flatMap, List.map_flatMap,
        List.flatMap_def]
    rw [hfields]
    exact (paths_separated _ hparts).grouped nested
  columns := by
    intro column hcolumn
    rw [infixJunction, columns_grouped, columns_separated] at hcolumn
    obtain ⟨t, ht, hcolumn⟩ := List.mem_flatMap.1 hcolumn
    exact forall_of_forall₂ h (fun _ _ ht => ht.columns) t ht column hcolumn

theorem pathwise_template {nested : Bool} {c : Condition} (h : itemExpression.template nested c = .ok t) :
    Pathwise c t := by
  have hkeeps : itemExpression.Keeps (fun _ => True) fun _ c t => Pathwise c t := by
    refine ⟨fun _ h => ?_, fun {nested j cs ts} h => ?_, fun {nested c t} h => ?_⟩
    · have hone := onePath_comparison h
      exact ⟨hone.paths, fun column => hone.not_mem_column⟩
    · exact pathwise_junction j nested h
    · refine ⟨h.paths.between "NOT (" ")", fun column hcolumn => h.columns column ?_⟩
      have hcolumns : (negationBefore t).columns = t.columns := by simp [negationBefore]
      rwa [← hcolumns]
  exact hkeeps.template nested c t (fun _ _ => trivial) h

end Grammar

end QueryMethods
