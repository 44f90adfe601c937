/-
Fields in query texts. The characters of a field end no word and begin no reference, so a field is
one word of the text, or one path of aliases, and the column reader of its dialect gives it back.
-/
import Mathlib.Data.Bool.AllAny
import QueryMethods.Filter.Native
import QueryMethods.Proofs.Reading.Clauses

namespace QueryMethods

/-! ## Characters -/

/-- The characters that begin references. -/
def sigils : List Char := ['@', '$', ':', '?', '#']

/-- The characters that end words or begin references, and double quotes. -/
def loudChars : List Char := '"' :: ' ' :: Symbol.marks ++ sigils

/-- Letters and digits, underscores and dots; letters beyond ASCII are not told from other such
characters. -/
def isFieldChar (c : Char) : Bool :=
  c.isAlphanum || c == '_' || c == '.' || 128 ≤ c.toNat

theorem not_mem_loudChars {c : Char} (h : isFieldChar c) : c ∉ loudChars := by
  have hall : ∀ c ∈ loudChars, isFieldChar c = false :=
    List.all_iff_forall_prop.1 (by decide)
  intro hmem
  rw [hall c hmem] at h
  cases h

theorem not_mem_sigils {c : Char} (h : isFieldChar c) : c ∉ sigils :=
  fun hmem => not_mem_loudChars h (List.mem_append_right _ hmem)

theorem ends_of_isFieldChar {c : Char} (h : isFieldChar c) : (Symbol.char c).ends = none := by
  have hloud := not_mem_loudChars h
  simp only [loudChars, List.cons_append, List.mem_cons, List.mem_append, not_or] at hloud
  obtain ⟨-, hspace, hmarks, -⟩ := hloud
  rw [Symbol.ends, if_neg hspace, if_neg hmarks]

/-- Only sigils begin references. -/
def Quiet (refers : Char → Bool) : Prop :=
  ∀ c, c ∉ sigils → refers c = false

variable {refers : Char → Bool}

/-- No character of the text begins a reference. -/
def Silent (refers : Char → Bool) (s : String) : Prop :=
  ∀ c ∈ s.toList, refers c = false

theorem Silent.append {s t : String} (hs : Silent refers s) (ht : Silent refers t) :
    Silent refers (s ++ t) := by
  intro c hc
  rw [String.toList_append] at hc
  rcases List.mem_append.1 hc with hc | hc
  · exact hs c hc
  · exact ht c hc

/-- A text without sigils. -/
def isPlainText (s : String) : Bool :=
  s.toList.all fun c => !sigils.contains c

theorem Quiet.silent (hq : Quiet refers) {s : String} (h : isPlainText s) : Silent refers s := by
  intro c hc
  have hplain := List.all_eq_true.1 h c hc
  exact hq c (by simpa using hplain)

theorem Dialect.quiet_refers (d : Dialect) : Quiet d.marking.refers := by
  intro c hc
  have hne (x : Char) (hx : x ∈ sigils) : c ≠ x := by
    rintro rfl
    exact hc hx
  have hnamed (x : Char) (hx : x ∈ sigils) : ([x] == [c]) = false := by
    simpa using (hne x hx).symm
  cases d with
  | atNamed | searchIndex => exact hnamed '@' (by decide)
  | dollarNamed => exact hnamed '$' (by decide)
  | relationalNamed => exact hnamed ':' (by decide)
  | gremlinScript => rfl
  | driverPositional | expressionPositional | relationalPositional =>
    exact beq_false_of_ne (hne '?' (by decide))
  | itemExpression =>
    show (c == '#' || c == ':') = false
    simp [hne '#' (by decide), hne ':' (by decide)]

/-! ## Fields -/

/-- The words that are no fields where fields stand in the text as they are. -/
def Dialect.reserved : Dialect → List String
  | .driverPositional | .relationalNamed | .relationalPositional | .searchIndex =>
    ["AND", "OR", "NOT"]
  | _ => []

/-- Identifiers that are no words of the dialect. -/
structure Dialect.IsField (d : Dialect) (field : String) : Prop where
  ne_empty : field ≠ ""
  chars : ∀ c ∈ field.toList, isFieldChar c
  free : field ∉ d.reserved

variable {d : Dialect} {field : String}

theorem Dialect.IsField.silent (hf : d.IsField field) (hq : Quiet refers) : Silent refers field :=
  fun c hc => hq c (not_mem_sigils (hf.chars c hc))

theorem Dialect.IsField.ends (hf : d.IsField field) :
    ∀ c ∈ field.toList, (Symbol.char c).ends = none :=
  fun c hc => ends_of_isFieldChar (hf.chars c hc)

/-! ## Columns -/

/-- A template that is one token and a column of its dialect. -/
structure IsColumn (refers : Char → Bool) (column? : Token → Option String) (field : String)
    (col : Template) (t : Token) : Prop where
  clean : col.Clean refers
  tokens : Symbol.tokens col.symbols = [t]
  free : t.connective? = none
  read : column? t = some field

/-- The connectives are made of letters. -/
theorem not_connective {w : String} {c : Char} (hmem : c ∈ w.toList) (hc : c.isAlpha = false) :
    w ∉ ["AND", "OR", "NOT"] := by
  have hall : ["AND", "OR", "NOT"].all (fun w => w.toList.all Char.isAlpha) = true := by decide
  intro hw
  rw [List.all_eq_true.1 (List.all_eq_true.1 hall w hw) c hmem] at hc
  cases hc

theorem connective?_word {w : String} (h : w ∉ ["AND", "OR", "NOT"]) :
    (Token.word w).connective? = none := by
  simp only [List.mem_cons, List.not_mem_nil, or_false, not_or] at h
  simp [Token.connective?, h]

/-- A word of a text that is a column. -/
theorem isColumn_word {column? : Token → Option String} {w : String} (hsilent : Silent refers w)
    (hends : ∀ c ∈ w.toList, (Symbol.char c).ends = none) (hne : w ≠ "")
    (hfree : w ∉ ["AND", "OR", "NOT"]) (hread : column? (.word w) = some field) :
    IsColumn refers column? field [.text w] (.word w) where
  clean := ⟨hsilent, trivial⟩
  tokens := by
    rw [Template.symbols_cons, Template.symbols_nil, List.append_nil]
    exact Symbol.tokens_word hends hne
  free := connective?_word hfree
  read := hread

theorem isColumn_bare (hq : Quiet refers) (hf : d.IsField field)
    (hd : d.reserved = ["AND", "OR", "NOT"]) :
    IsColumn refers Clause.bare? field [.text field] (.word field) :=
  isColumn_word (hf.silent hq) hf.ends hf.ne_empty (hd ▸ hf.free) rfl

/-- A field of a variable; the dot tells it from the connectives. -/
theorem isColumn_member (hq : Quiet refers) (hf : d.IsField field) {var : String}
    (hvar : ∀ c ∈ var.toList, isFieldChar c) :
    IsColumn refers (Clause.member? var) field [.text (Grammar.member var field)]
      (.word (Grammar.member var field)) := by
  have htext : (Grammar.member var field).toList = (var ++ ".").toList ++ field.toList := by
    rw [Grammar.member, String.toList_append]
  have hchars : ∀ c ∈ (Grammar.member var field).toList, isFieldChar c := by
    intro c hc
    rw [htext, String.toList_append] at hc
    rcases List.mem_append.1 hc with hc | hc
    · rcases List.mem_append.1 hc with hc | hc
      · exact hvar c hc
      · rw [List.mem_singleton.1 hc]
        rfl
    · exact hf.chars c hc
  have hdot : '.' ∈ (Grammar.member var field).toList := by
    rw [htext, String.toList_append]
    simp
  refine isColumn_word (fun c hc => hq c (not_mem_sigils (hchars c hc)))
    (fun c hc => ends_of_isFieldChar (hchars c hc)) ?_ ?_ ?_
  · intro hempty
    rw [hempty] at hdot
    cases hdot
  · exact not_connective hdot rfl
  · rw [Clause.member?, htext, List.dropPrefix?_append_of_beq _ (beq_self_eq_true _)]
    show some (String.ofList field.toList) = _
    rw [String.ofList_toList]

theorem isColumn_quoted (hq : Quiet refers) (hf : d.IsField field) :
    IsColumn refers Clause.quoted? field [.text (Text.doubledQuoted field)]
      (.word (Text.doubledQuoted field)) := by
  -- There is no quote in a field to be doubled.
  have hdoubled : (field.toList.flatMap fun c => if c = '"' then [c, c] else [c]) = field.toList := by
    have hsingle : ∀ c ∈ field.toList, (if c = '"' then [c, c] else [c]) = [c] := by
      intro c hc
      apply if_neg
      rintro rfl
      exact not_mem_loudChars (hf.chars '"' hc) (by decide)
    rw [List.flatMap_def, List.map_congr_left hsingle, ← List.flatMap_def, List.flatMap_singleton']
  have htext : (Text.doubledQuoted field).toList = '"' :: (field.toList ++ ['"']) := by
    rw [Text.doubledQuoted, hdoubled]
    simp
  have hquote : refers '"' = false := hq '"' (by decide)
  refine isColumn_word ?_ ?_ ?_ ?_ ?_
  · intro c hc
    rw [htext] at hc
    rcases List.mem_cons.1 hc with rfl | hc
    · exact hquote
    · rcases List.mem_append.1 hc with hc | hc
      · exact hf.silent hq c hc
      · rw [List.mem_singleton.1 hc]
        exact hquote
  · intro c hc
    rw [htext] at hc
    rcases List.mem_cons.1 hc with rfl | hc
    · rfl
    · rcases List.mem_append.1 hc with hc | hc
      · exact hf.ends c hc
      · rw [List.mem_singleton.1 hc]
        rfl
  · intro hempty
    rw [hempty] at htext
    cases htext
  · refine not_connective (c := '"') ?_ rfl
    rw [htext]
    exact List.mem_cons_self
  · rw [Clause.quoted?, htext]
    simp

/-- The aliases of the segments of a path. -/
def aliasedSegments (segments : List (List Char)) : Template :=
  Template.separated "." (segments.map fun s => [.aliased (String.ofList s)])

theorem aliasedSegments_cons_cons (first second : List Char) (segments : List (List Char)) :
    aliasedSegments (first :: second :: segments) =
      .aliased (String.ofList first) :: .text "." :: aliasedSegments (second :: segments) := by
  rw [aliasedSegments, List.map_cons, List.map_cons, Template.separated_cons_cons]
  rfl

/-- The aliases of a path are one word, which spells the path. -/
theorem aliasedSegments_spec (hdot : refers '.' = false) (halias : refers '#' = true)
    {segments : List (List Char)} (hne : segments ≠ []) :
    (aliasedSegments segments).Clean refers ∧
      (∀ s ∈ (aliasedSegments segments).symbols, s.ends = none) ∧
        (aliasedSegments segments).symbols.any Symbol.isColumn = true ∧
          (aliasedSegments segments).symbols.flatMap Symbol.chars = ['.'].intercalate segments := by
  induction segments with
  | nil => exact absurd rfl hne
  | cons first segments ih =>
    cases segments with
    | nil =>
      refine ⟨⟨halias, trivial, trivial⟩, ?_, rfl, ?_⟩
      · intro s hs
        rw [List.mem_singleton.1 hs]
        rfl
      · show String.toList _ ++ [] = _
        rw [String.toList_ofList, List.append_nil, List.intercalate_singleton]
    | cons second segments =>
      obtain ⟨hclean, hends, -, hchars⟩ := ih (by simp)
      rw [aliasedSegments_cons_cons]
      refine ⟨⟨halias, Template.opens_text rfl rfl _, ?_, hclean⟩, ?_, rfl, ?_⟩
      · intro c hc
        rw [List.mem_singleton.1 hc]
        exact hdot
      · intro s hs
        rcases List.mem_cons.1 hs with rfl | hs
        · rfl
        · rcases List.mem_cons.1 hs with rfl | hs
          · rfl
          · exact hends s hs
      · show String.toList _ ++
          ('.' :: (aliasedSegments (second :: segments)).symbols.flatMap Symbol.chars) = _
        rw [hchars, String.toList_ofList, List.intercalate_cons_cons, List.append_assoc]
        rfl

theorem isColumn_aliasPath (hdot : refers '.' = false) (halias : refers '#' = true) (field : String) :
    IsColumn refers Clause.path? field (Grammar.aliasPath field) (.path field) := by
  have hne : field.toList.splitOn '.' ≠ [] := List.splitOn_ne_nil '.' field.toList
  obtain ⟨hclean, hends, hcolumn, hchars⟩ := aliasedSegments_spec hdot halias hne
  have hsymbols : (aliasedSegments (field.toList.splitOn '.')).symbols ≠ [] := by
    intro hnil
    rw [hnil] at hcolumn
    cases hcolumn
  refine ⟨hclean, ?_, rfl, rfl⟩
  show Symbol.tokens (aliasedSegments (field.toList.splitOn '.')).symbols = _
  rw [Symbol.tokens_run hends hsymbols, Symbol.wordOf, hcolumn, hchars, List.intercalate_splitOn,
    String.ofList_toList]
  rfl

end QueryMethods
