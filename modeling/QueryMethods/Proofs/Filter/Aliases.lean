/-
The filters of item stores. Their texts refer to exactly the aliases and the values of their tables,
each table can be read in both directions, and with the columns in the place of their aliases every
path is again the field that it was made from, in the filter as in the projection.
-/
import QueryMethods.Proofs.Filter.References
import QueryMethods.Proofs.Reading.Paths

namespace QueryMethods

/-! ## Lists with commas -/

/-- The parts of a text between a comma and a space. -/
def splitCommas : List Char → List (List Char)
  | [] => [[]]
  | ',' :: ' ' :: r => [] :: splitCommas r
  | c :: r => (splitCommas r).modifyHead (c :: ·)

theorem splitCommas_append {part : List Char} (h : ',' ∉ part) (r : List Char) :
    splitCommas (part ++ r) = (splitCommas r).modifyHead (part ++ ·) := by
  induction part with
  | nil => cases h : splitCommas r <;> simp [h]
  | cons c part ih =>
    obtain ⟨hc, hpart⟩ := not_or.1 (mt List.mem_cons.2 h)
    rw [List.cons_append, splitCommas, ih hpart]
    · cases splitCommas r <;> rfl
    · rintro r' rfl
      exact absurd rfl hc

theorem splitCommas_intercalate {parts : List (List Char)} (hne : parts ≠ [])
    (h : ∀ part ∈ parts, ',' ∉ part) : splitCommas ([',', ' '].intercalate parts) = parts := by
  induction parts with
  | nil => exact absurd rfl hne
  | cons part parts ih =>
    obtain ⟨hpart, hparts⟩ := List.forall_mem_cons.1 h
    cases parts with
    | nil =>
      rw [List.intercalate_singleton, ← List.append_nil part, splitCommas_append (by simpa using hpart)]
      rfl
    | cons other parts =>
      rw [List.intercalate_cons_cons, List.append_assoc, splitCommas_append hpart]
      show List.modifyHead _ ([] :: splitCommas ([',', ' '].intercalate (other :: parts))) = _
      rw [ih (List.cons_ne_nil other parts) hparts]
      simp

example : splitCommas "#a.#b, #c".toList = ["#a.#b".toList, "#c".toList] := rfl

/-! ## Closed filters -/

namespace ItemFilter

/-- The text of the projection, which is empty where all attributes are selected. -/
def projectionText (i : ItemFilter) : String :=
  i.projection.getD ""

/-- A text with the columns in the place of their aliases. -/
def unaliased? (i : ItemFilter) (text : List Char) : Option String :=
  (fun ss => String.ofList (ss.flatMap Symbol.chars)) <$> Symbol.follow (Marking.findItem? i) text

/-- The texts of the filter refer to what is in its tables and to nothing else. -/
structure Closed (i : ItemFilter) : Prop where
  aliases : ∀ text, text ∈ references '#' i.filter.toList ++ references '#' i.projectionText.toList ↔
    text ∈ i.names.keys
  /-- Each token is there once. -/
  tokens : references ':' i.filter.toList = i.values.keys
  projection_tokens : references ':' i.projectionText.toList = []
  nodup_aliases : i.names.keys.Nodup
  nodup_columns : (i.names.map Prod.snd).Nodup
  nodup_tokens : i.values.keys.Nodup
  columns : ∀ column ∈ i.names.map Prod.snd, '.' ∉ column.toList
  alias_names : ∀ key ∈ i.names.keys, ∃ name, Placeholder.IsIdentifier name ∧ key = "#" ++ name
  token_names : ∀ key ∈ i.values.keys, ∃ name, Placeholder.IsIdentifier name ∧ key = ":" ++ name

/-- The filter says the fields and operands of the condition, and the columns of the projection. -/
structure Says (i : ItemFilter) (c : Condition) (projection : List String) : Prop where
  /-- With the columns in the place of their aliases, the paths are the fields. -/
  paths : ∃ ss, Symbol.follow (Marking.findItem? i) i.filter.toList = some ss ∧
    Symbol.paths ss = c.comparisons.map Comparison.field
  values : i.values.map Prod.snd = c.values .itemExpression
  projection_eq_none : i.projection = none ↔ projection = []
  projection : ∀ text, i.projection = some text →
    (splitCommas text.toList).map i.unaliased? = projection.map some

end ItemFilter

theorem not_mem_prefixed {sigil name : String} {c : Char} (hsigil : c ∉ sigil.toList)
    (hname : ∀ c ∈ name.toList, Params.isNameChar c) (hc : Params.isNameChar c = false) :
    c ∉ (sigil ++ name).toList := by
  rw [String.toList_append, List.mem_append]
  rintro (hmem | hmem)
  · exact hsigil hmem
  · rw [hname c hmem] at hc
    cases hc

namespace Marking

/-- The alias of a column among others. -/
def aliasOf (columns : List String) (column : String) : String :=
  ((aliases columns).lookup column).getD column

theorem values_aliases_eq_map (columns : List String) :
    (aliases columns).map Prod.snd = columns.eraseDups.map (aliasOf columns) := by
  have hnodup : (aliases columns).keys.Nodup := by
    rw [keys_aliases]
    exact nodup_eraseDups columns
  rw [← keys_aliases columns, Entries.keys, List.map_map]
  refine List.map_congr_left fun p hp => ?_
  rw [Function.comp_apply, aliasOf, Entries.lookup_of_mem hnodup hp]
  rfl

theorem aliasOf_spec {columns : List String} {column : String} (h : column ∈ columns) :
    ∃ name, aliasOf columns column = "#" ++ name ∧ (∀ c ∈ name.toList, Params.isNameChar c) ∧
      ((aliases columns).map fun (column, name) => (name, column)).lookup ("#" ++ name) =
        some column := by
  obtain ⟨name, halias, hname, hback⟩ := alias_spec h
  exact ⟨name, by rw [aliasOf, halias]; rfl, hname, hback⟩

/-- An alias is a reference and has no other sigil. -/
theorem mentions_aliasOf {columns : List String} {column : String} (h : column ∈ columns) :
    Mentions '#' (aliasOf columns column) [aliasOf columns column] ∧
      Mentions ':' (aliasOf columns column) [] := by
  obtain ⟨name, halias, hname, -⟩ := aliasOf_spec h
  rw [halias]
  exact ⟨.of_prefixed rfl hname, .nothing (not_mem_prefixed (by decide) hname rfl)⟩

/-- The references in a text whose columns have aliases are these aliases and the tokens. -/
theorem references_aliased (columns : List String) (slot : String → String) {t : Template}
    (hclean : t.Clean (refers .tables)) (hcolumns : ∀ column ∈ t.columns, column ∈ columns)
    (hslots : ∀ name v, .slot name v ∈ t →
      Mentions '#' (slot name) [] ∧ Mentions ':' (slot name) [slot name]) :
    references '#' (t.render slot (aliasOf columns)).toList = t.columns.map (aliasOf columns) ∧
      references ':' (t.render slot (aliasOf columns)).toList = (t.slots.map Prod.fst).map slot := by
  have haliases (name : String) (h : .aliased name ∈ t) :=
    mentions_aliasOf (hcolumns name (Template.mem_columns h))
  constructor
  · rw [← Template.mentions_columns]
    exact Template.references_render slot _ hclean rfl (fun name v h => (hslots name v h).1)
      fun name h => (haliases name h).1
  · rw [← Template.mentions_slots]
    exact Template.references_render slot _ hclean rfl (fun name v h => (hslots name v h).2)
      fun name h => (haliases name h).2

/-- The columns of a projection as one template. -/
def projected (projection : List String) : Template :=
  Template.separated ", " (projection.map Grammar.aliasPath)

theorem clean_projected (projection : List String) : (projected projection).Clean (refers .tables) := by
  refine Template.clean_separated ?_ (Template.opens_text rfl rfl) fun t ht => ?_
  · exact (Dialect.quiet_refers .itemExpression).silent rfl
  · obtain ⟨field, -, rfl⟩ := List.mem_map.1 ht
    exact Grammar.clean_aliasPath rfl rfl field

theorem columns_projected (projection : List String) :
    (projected projection).columns = (projection.map Grammar.aliasPath).flatMap Template.columns :=
  Template.columns_separated ", " _

theorem slots_projected (projection : List String) : (projected projection).slots = [] := by
  have hvalues : (projected projection).values = [] := by
    rw [projected, Template.values_separated, List.flatMap_map]
    exact List.flatMap_eq_nil_iff.2 fun field _ => Grammar.values_aliasPath field
  exact List.map_eq_nil_iff.1 hvalues

/-- All columns of a filter and its projection. -/
def columnsWith (t : Template) (projection : List String) : List String :=
  t.columns ++ (projected projection).columns

/-- The filter of an item store with its projection. -/
def itemOf (t : Template) (projection : List String) : ItemFilter where
  filter := (t.allot Placeholder.fresh []).render (":" ++ ·) (aliasOf (columnsWith t projection))
  names := (aliases (columnsWith t projection)).map fun (column, name) => (name, column)
  values := (t.allot Placeholder.fresh []).slots.map fun (name, v) => (":" ++ name, v)
  projection :=
    if projection.isEmpty then none
    else some ((projected projection).render id (aliasOf (columnsWith t projection)))

theorem fill_itemOf (t : Template) (projection : List String) :
    fill .tables t (projection.map Grammar.aliasPath) = .item (itemOf t projection) := by
  rw [fill_tables]
  simp only [itemOf, columnsWith, projected, Template.columns_separated,
    Template.render_separated, List.isEmpty_map]
  rfl

section Item

variable {t : Template} {projection : List String}

theorem names_itemOf (t : Template) (projection : List String) :
    (itemOf t projection).names.keys =
        (columnsWith t projection).eraseDups.map (aliasOf (columnsWith t projection)) ∧
      (itemOf t projection).names.map Prod.snd = (columnsWith t projection).eraseDups := by
  rw [← values_aliases_eq_map, ← keys_aliases (columnsWith t projection), Entries.keys, Entries.keys]
  simp only [itemOf, List.map_map]
  exact ⟨rfl, rfl⟩

theorem tokens_itemOf (t : Template) (projection : List String) :
    (itemOf t projection).values.keys =
      ((t.allot Placeholder.fresh []).slots.map Prod.fst).map (":" ++ ·) := by
  simp only [itemOf, Entries.keys, List.map_map]
  rfl

theorem projectionText_itemOf (t : Template) (projection : List String) :
    (itemOf t projection).projectionText =
      (projected projection).render id (aliasOf (columnsWith t projection)) := by
  cases projection with
  | nil => rfl
  | cons field projection => rfl

theorem references_filter (hclean : t.Clean (refers .tables)) (projection : List String) :
    references '#' (itemOf t projection).filter.toList =
        t.columns.map (aliasOf (columnsWith t projection)) ∧
      references ':' (itemOf t projection).filter.toList = (itemOf t projection).values.keys := by
  have hcolumns := Template.columns_allot Placeholder.fresh t []
  have hallotted : (t.allot Placeholder.fresh []).Clean (refers .tables) :=
    (Template.clean_allot t []).2 hclean
  rw [tokens_itemOf, ← hcolumns]
  refine references_aliased _ (":" ++ ·) hallotted (fun column hcolumn => ?_) fun name v hslot => ?_
  · rw [hcolumns] at hcolumn
    exact List.mem_append_left _ hcolumn
  · have hname := Template.isNameChar_of_mem_slots (Template.mem_slots hslot)
    exact ⟨.nothing (not_mem_prefixed (by decide) hname rfl), .of_prefixed rfl hname⟩

theorem references_projection (t : Template) (projection : List String) :
    references '#' (itemOf t projection).projectionText.toList =
        (projected projection).columns.map (aliasOf (columnsWith t projection)) ∧
      references ':' (itemOf t projection).projectionText.toList = [] := by
  have hslots := slots_projected projection
  have hreferences := references_aliased (columnsWith t projection) id (clean_projected projection)
    (fun column h => List.mem_append_right _ h) fun name v hslot => by
      have := Template.mem_slots hslot
      rw [hslots] at this
      cases this
  rw [hslots] at hreferences
  rw [projectionText_itemOf]
  exact hreferences

theorem closed_itemOf (hclean : t.Clean (refers .tables))
    (hcolumns : ∀ column ∈ t.columns, '.' ∉ column.toList) (projection : List String) :
    (itemOf t projection).Closed := by
  obtain ⟨hkeys, hnames⟩ := names_itemOf t projection
  obtain ⟨haliases, htokens⟩ := references_filter hclean projection
  obtain ⟨haliases', htokens'⟩ := references_projection t projection
  refine ⟨fun text => ?_, htokens, htokens', ?_, ?_, ?_, fun column hcolumn => ?_, ?_, ?_⟩
  · -- The table has each column once, the texts have it wherever it stands.
    rw [haliases, haliases', hkeys, ← List.map_append]
    simp only [List.mem_map, List.mem_eraseDups]
    rfl
  · rw [hkeys, ← values_aliases_eq_map, values_aliases]
    exact nodup_map_append "#" (Placeholder.nodup_assign _ _)
  · rw [hnames]
    exact nodup_eraseDups _
  · rw [tokens_itemOf]
    exact nodup_map_append ":" (Template.nodup_slotNames t [])
  · rw [hnames, List.mem_eraseDups] at hcolumn
    rcases List.mem_append.1 hcolumn with hcolumn | hcolumn
    · exact hcolumns column hcolumn
    · rw [columns_projected] at hcolumn
      obtain ⟨u, hu, hcolumn⟩ := List.mem_flatMap.1 hcolumn
      obtain ⟨field, -, rfl⟩ := List.mem_map.1 hu
      exact Grammar.not_mem_columns_aliasPath hcolumn
  · intro key hkey
    rw [hkeys, ← values_aliases_eq_map, values_aliases] at hkey
    obtain ⟨name, hname, rfl⟩ := List.mem_map.1 hkey
    exact ⟨name, Placeholder.isIdentifier_of_mem_assign hname, rfl⟩
  · intro key hkey
    rw [tokens_itemOf] at hkey
    obtain ⟨name, hname, rfl⟩ := List.mem_map.1 hkey
    exact ⟨name, Template.isIdentifier_of_mem_slotNames hname, rfl⟩

theorem mem_columnsWith {field column : String} (h : field ∈ projection)
    (hcolumn : column ∈ (Grammar.aliasPath field).columns) : column ∈ columnsWith t projection := by
  refine List.mem_append_right _ ?_
  rw [columns_projected]
  exact List.mem_flatMap.2 ⟨_, List.mem_map.2 ⟨field, h, rfl⟩, hcolumn⟩

/-- With the columns for its aliases, a column of the projection is itself. -/
theorem unaliased_column {field : String} (h : field ∈ projection) :
    (itemOf t projection).unaliased?
      ((Grammar.aliasPath field).render id (aliasOf (columnsWith t projection))).toList = some field := by
  have hne : field.toList.splitOn '.' ≠ [] := List.splitOn_ne_nil '.' field.toList
  have hdot : refers .tables '.' = false := rfl
  obtain ⟨hclean, -, -, hchars⟩ := aliasedSegments_spec hdot rfl hne
  have hfollow : Symbol.follow (findItem? (itemOf t projection))
      ((Grammar.aliasPath field).render id (aliasOf (columnsWith t projection))).toList =
        some (Grammar.aliasPath field).symbols := by
    refine Template.follow_render id _ ?_ (fun name v hslot => ?_) fun column hcolumn => ?_
    · rw [isSome_findItem?]
      exact hclean
    · have := Template.mem_slots hslot
      rw [Template.slots_aliasPath] at this
      cases this
    · obtain ⟨name, halias, hname, hback⟩ :=
        aliasOf_spec (mem_columnsWith (t := t) h (Template.mem_columns hcolumn))
      rw [halias]
      exact refers_column hname hback
  rw [ItemFilter.unaliased?, hfollow]
  show some (String.ofList ((aliasedSegments (field.toList.splitOn '.')).symbols.flatMap Symbol.chars)) = _
  rw [hchars, List.intercalate_splitOn, String.ofList_toList]

theorem not_mem_column {field : String} (h : field ∈ projection) :
    ',' ∉ ((Grammar.aliasPath field).render id (aliasOf (columnsWith t projection))).toList := by
  have hcolumns := Template.columns_aliasPath field
  rw [Grammar.aliasPath, Template.render_separated, String.toList_intercalate, List.map_map,
    List.map_map]
  intro hcomma
  rcases mem_intercalate hcomma with heq | ⟨part, hpart, hmem⟩
  · cases heq
  · obtain ⟨segment, hsegment, rfl⟩ := List.mem_map.1 hpart
    have hcolumn : String.ofList segment ∈ (Grammar.aliasPath field).columns := by
      rw [hcolumns]
      exact List.mem_map.2 ⟨segment, hsegment, rfl⟩
    obtain ⟨name, halias, hname, -⟩ := aliasOf_spec (mem_columnsWith (t := t) h hcolumn)
    have htext : Template.render id (aliasOf (columnsWith t projection))
        [.aliased (String.ofList segment)] = "#" ++ name := by
      simp [Template.render, halias]
    rw [Function.comp_apply, Function.comp_apply, htext] at hmem
    exact not_mem_prefixed (by decide) hname rfl hmem

/-- Split at its commas, the projection is the list that it was made from. -/
theorem split_projection (hne : projection ≠ []) :
    (splitCommas (itemOf t projection).projectionText.toList).map (itemOf t projection).unaliased? =
      projection.map some := by
  have hparts : (itemOf t projection).projectionText.toList =
      [',', ' '].intercalate (projection.map fun field =>
        ((Grammar.aliasPath field).render id (aliasOf (columnsWith t projection))).toList) := by
    rw [projectionText_itemOf, projected, Template.render_separated, String.toList_intercalate,
      List.map_map, List.map_map]
    rfl
  rw [hparts, splitCommas_intercalate]
  · rw [List.map_map]
    exact List.map_congr_left fun field h => unaliased_column h
  · exact mt List.map_eq_nil_iff.1 hne
  · intro part hpart
    obtain ⟨field, hfield, rfl⟩ := List.mem_map.1 hpart
    exact not_mem_column hfield

theorem says_itemOf {c : Condition} (hclean : t.Clean (refers .tables)) (hpaths : Grammar.Pathwise c t)
    (hvalues : t.values = c.values .itemExpression) (projection : List String) :
    (itemOf t projection).Says c projection where
  paths := by
    have hsymbols := symbols?_fill (m := .tables) (projection.map Grammar.aliasPath) hclean nofun
    rw [fill_itemOf] at hsymbols
    refine ⟨t.symbols, hsymbols, ?_⟩
    have hfields := hpaths.paths []
    rw [List.append_nil] at hfields
    rw [hfields, Symbol.paths, List.append_nil]
  values := by
    rw [← hvalues, ← Template.values_allot Placeholder.fresh t []]
    simp only [itemOf, List.map_map]
    rfl
  projection_eq_none := by
    cases projection with
    | nil => exact ⟨fun _ => rfl, fun _ => rfl⟩
    | cons field projection => constructor <;> intro h <;> cases h
  projection := by
    intro text htext
    have hne : projection ≠ [] := by
      rintro rfl
      cases htext
    have hsplit := split_projection (t := t) hne
    rwa [ItemFilter.projectionText, htext] at hsplit

end Item

end Marking

namespace Condition

/-- The filter of an item store has tables for exactly what its texts refer to, and it says the fields
and operands of its condition and the columns of its projection. -/
theorem item_toFilter {c : Condition} {projection : List String} {f : Filter}
    (hf : c.toFilter .itemExpression projection = .ok f) :
    ∃ i, f = .item i ∧ i.Closed ∧ i.Says c projection := by
  obtain ⟨t, ht, rfl⟩ := ok_of_map hf
  have hq := Dialect.quiet_refers .itemExpression
  have hclean : t.Clean (Marking.refers .tables) :=
    Grammar.clean_template hq rfl rfl (P := fun _ => True) (fun _ h => Grammar.clean_itemExpression hq rfl h)
      (fun _ _ => trivial) ht
  have hpaths := Grammar.pathwise_template ht
  refine ⟨_, Marking.fill_itemOf t projection, Marking.closed_itemOf hclean hpaths.columns projection, ?_⟩
  exact Marking.says_itemOf hclean hpaths (Grammar.values_template (d := .itemExpression) ht) projection

/-- Fields that have segments in common, segments that make one placeholder, and empty segments. -/
def entangled : Condition :=
  .junction .or [.compare "a.b" .equal (.int 1), .between "a-b.b" (.int 2) (.int 3),
    .not (.compare "a..b" .oneOf (.list [.null, .str "#a"])), .compare "" .like (.str "%x%"),
    .junction .and [.compare "a_b" .like (.str "A"), .compare ", #" .like (.str "A%")]]

theorem item_entangled :
    ∃ f, entangled.toFilter .itemExpression ["b.a", "", "a_b", ", "] = .ok f ∧
      ∃ i, f = .item i ∧ i.Closed ∧ i.Says entangled ["b.a", "", "a_b", ", "] :=
  ⟨_, rfl, item_toFilter rfl⟩

end Condition

end QueryMethods
