/-
Texts between single quotes. Escaping puts backslashes into a text and changes nothing else, so that the
text has no bare quote and covers none after it; a text that is so already stays as it is. Therefore a
quoted text is one literal wherever it stands: the keys of traversal scripts and the texts of values as
they are shown end at their own last quote.
-/
import QueryMethods.Filter.Native
import QueryMethods.Proofs.Grammar.Forms
import QueryMethods.Proofs.Separators
import QueryMethods.Proofs.Template.Parts
import QueryMethods.Proofs.Text.Covering

namespace QueryMethods

namespace Text

/-! ## Escaping -/

/-- The second text is the first with backslashes put into it. -/
inductive Inserts : List Char → List Char → Prop
  | nil : Inserts [] []
  | keep (c : Char) {s t : List Char} (h : Inserts s t) : Inserts (c :: s) (c :: t)
  | backslash {s t : List Char} (h : Inserts s t) : Inserts s ('\\' :: t)

/-- Escaping makes a text that ends at the first quote that no backslash covers. -/
theorem isBody_coverQuotes (s : List Char) :
    IsBody (fun _ => True) '\'' (coverQuotes false s) ∧
      IsBody (fun _ => True) '\'' ('\\' :: coverQuotes true s) := by
  induction s with
  | nil => exact ⟨.nil, .covered trivial .nil⟩
  | cons c s ih =>
    refine ⟨?_, .covered trivial ih.1⟩
    rw [coverQuotes]
    split
    · exact .covered trivial ih.1
    · rename_i hquote
      by_cases hback : c = '\\'
      · rw [hback]
        exact ih.2
      · rw [beq_false_of_ne hback]
        exact .plain hquote hback ih.1

theorem coverQuotes_eq_self {covered : Bool} {s : List Char} (hbare : ¬Stands false '\'' covered s)
    (hdangles : covering covered s = false) : coverQuotes covered s = s := by
  induction s generalizing covered with
  | nil =>
    cases covered with
    | false => rfl
    | true => cases hdangles
  | cons c s ih =>
    rw [stands_cons_iff, not_or] at hbare
    cases covered with
    | true =>
      rw [covering] at hdangles
      have hflag : (c == '\\' && !true) = false := Bool.and_false _
      rw [hflag] at hbare hdangles
      rw [coverQuotes, ih hbare.2 hdangles]
    | false =>
      rw [covering] at hdangles
      have hflag : (c == '\\' && !false) = (c == '\\') := Bool.and_true _
      rw [hflag] at hbare hdangles
      rw [coverQuotes, if_neg fun hc => hbare.1 ⟨rfl, hc⟩, ih hbare.2 hdangles]

theorem inserts_coverQuotes (covered : Bool) (s : List Char) : Inserts s (coverQuotes covered s) := by
  induction s generalizing covered with
  | nil =>
    cases covered with
    | false => exact .nil
    | true => exact .backslash .nil
  | cons c s ih =>
    cases covered with
    | true => exact .keep c (ih false)
    | false =>
      rw [coverQuotes]
      split
      · exact .backslash (.keep c (ih false))
      · exact .keep c (ih _)

theorem toList_escapeQuotes (s : String) : (escapeQuotes s).toList = coverQuotes false s.toList :=
  String.toList_ofList

theorem closed_escapeQuotes (s : String) :
    ¬Bare '\'' (escapeQuotes s).toList ∧ ¬Dangles (escapeQuotes s).toList := by
  rw [toList_escapeQuotes]
  exact (isBody_coverQuotes s.toList).1.closed (by decide)

theorem escapeQuotes_eq_self_iff (s : String) :
    escapeQuotes s = s ↔ ¬Bare '\'' s.toList ∧ ¬Dangles s.toList := by
  constructor
  · intro h
    have hclosed := closed_escapeQuotes s
    rwa [h] at hclosed
  · rintro ⟨hbare, hdangles⟩
    rw [escapeQuotes, coverQuotes_eq_self hbare (Bool.eq_false_iff.2 hdangles), String.ofList_toList]

/-- A quoted text is one literal, whatever comes after it. -/
theorem literal?_singleQuoted (s : String) (rest : List Char) :
    literal? '\'' ((singleQuoted s).toList ++ rest) = some ((escapeQuotes s).toList, rest) := by
  have htext : (singleQuoted s).toList ++ rest = '\'' :: ((escapeQuotes s).toList ++ '\'' :: rest) := by
    simp [singleQuoted]
  rw [htext, literal?_eq_some_iff]
  exact ⟨rfl, closed_escapeQuotes s⟩

end Text

/-! ## Keys -/

namespace Template

variable {s : String} {t : Template}

theorem text_mem_allot (choose : List String → String → String) (h : .text s ∈ t) : ∀ taken,
    .text s ∈ t.allot choose taken := by
  induction t with
  | nil => cases h
  | cons p t ih =>
    intro taken
    rcases List.mem_cons.1 h with rfl | hmem
    · exact List.mem_cons_self
    · cases p <;> exact List.mem_cons_of_mem _ (ih hmem _)

/-- A text of a template stands in what is rendered. -/
theorem infix_render (slot column : String → String) (h : .text s ∈ t) :
    ∃ before after, t.render slot column = before ++ s ++ after := by
  obtain ⟨u, v, rfl⟩ := List.append_of_mem h
  refine ⟨render slot column u, render slot column v, ?_⟩
  rw [render_append, render_text, String.append_assoc]

end Template

namespace Grammar

/-- The text that opens the step of a comparison: a call and a quoted key. -/
def keyText (field : String) : String :=
  "has(" ++ Text.singleQuoted field ++ ", "

/-- The template of a condition has the key of each comparison. -/
theorem keyText_mem_template {nested : Bool} {c : Condition} {t : Template}
    (h : gremlinScript.template nested c = .ok t) {k : Comparison} (hk : k ∈ c.comparisons) :
    .text (keyText k.field) ∈ t := by
  have hkeeps : gremlinScript.Keeps (fun _ => True) fun _ c t =>
      ∀ k ∈ c.comparisons, .text (keyText k.field) ∈ t := by
    refine ⟨fun {nested k t} _ h => ?_, fun {nested j cs ts} h k hk => ?_, fun {nested c t} h k hk => ?_⟩
    · obtain ⟨p, -, rfl⟩ := ok_of_map h
      exact List.forall_mem_singleton.2 List.mem_cons_self
    · rw [Condition.comparisons, Condition.comparisonsAll_eq_flatMap, List.mem_flatMap] at hk
      obtain ⟨c, hc, hk⟩ := hk
      obtain ⟨t, ht, hkeys⟩ := exists_of_mem_forall₂ h.flip hc
      have hpart : .text "__." :: t ∈ ts.map (Piece.text "__." :: ·) := List.mem_map.2 ⟨t, ht, rfl⟩
      have hmem : .text (keyText k.field) ∈
          Template.separated ", " (ts.map (Piece.text "__." :: ·)) :=
        (infix_intercalate hpart).subset (List.mem_cons_of_mem _ (hkeys k hk))
      exact List.mem_append_left _ (List.mem_cons_of_mem _ hmem)
    · exact List.mem_append_left _ (List.mem_cons_of_mem _ (h k hk))
  exact hkeeps.template nested c t (fun _ _ => trivial) h k hk

end Grammar

/-- Where a condition has a comparison, its traversal script has the quoted key of the field. -/
theorem Condition.keyText_toFilter {c : Condition} {projection : List String} {f : Filter}
    (h : c.toFilter .gremlinScript projection = .ok f) {k : Comparison} (hk : k ∈ c.comparisons) :
    ∃ before after, f.queryText = before ++ Grammar.keyText k.field ++ after := by
  obtain ⟨t, ht, rfl⟩ := ok_of_map h
  exact Template.infix_render _ _
    (Template.text_mem_allot Placeholder.fresh (Grammar.keyText_mem_template ht hk) [])

/-! ## Quoted texts -/

/-- A quoted text is closed by its last quote, whatever comes after it. Escaping is idempotent, leaves a
text alone if and only if that is closed as it is, and puts nothing but backslashes into it. So each key
of a traversal script and each text that is shown as a value is one literal. -/
theorem Text.closes_singleQuoted (s : String) :
    (∀ rest, Text.literal? '\'' ((Text.singleQuoted s).toList ++ rest) =
        some ((Text.escapeQuotes s).toList, rest)) ∧
      Text.escapeQuotes (Text.escapeQuotes s) = Text.escapeQuotes s ∧
      (Text.escapeQuotes s = s ↔ ¬Text.Bare '\'' s.toList ∧ ¬Text.Dangles s.toList) ∧
      Text.Inserts s.toList (Text.escapeQuotes s).toList ∧
      (∀ rest, Text.literal? '\'' ((Value.str s).render.toList ++ rest) =
        some ((Text.escapeQuotes s).toList, rest)) ∧
      ∀ c projection f, Condition.toFilter c .gremlinScript projection = .ok f →
        ∀ k ∈ c.comparisons, k.field = s → ∃ before after,
          f.queryText.toList = before ++ "has(".toList ++ ((Text.singleQuoted s).toList ++ after) ∧
            Text.literal? '\'' ((Text.singleQuoted s).toList ++ after) =
              some ((Text.escapeQuotes s).toList, after) := by
  have hliteral := Text.literal?_singleQuoted s
  refine ⟨hliteral, ?idempotent, Text.escapeQuotes_eq_self_iff s, ?inserts, hliteral,
    fun c projection f h k hk hfield => ?key⟩
  case idempotent => exact (Text.escapeQuotes_eq_self_iff _).2 (Text.closed_escapeQuotes s)
  case inserts =>
    rw [Text.toList_escapeQuotes]
    exact Text.inserts_coverQuotes false s.toList
  case key =>
    obtain ⟨before, after, htext⟩ := Condition.keyText_toFilter h hk
    refine ⟨before.toList, (", " ++ after).toList, ?_, hliteral _⟩
    rw [htext, hfield, Grammar.keyText]
    simp

end QueryMethods
