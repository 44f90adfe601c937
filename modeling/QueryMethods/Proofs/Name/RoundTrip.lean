/-
Names spelled from a plan. A spelled plan is a verb, words without meaning and segments of plain
words; run together with by, and, or and the phrases of its keywords it is the words of a name.
Parsing that name, in either style, gives the plan with its fields in the style.
-/
import Mathlib.Data.List.Find
import QueryMethods.Proofs.Name.Spelling
import QueryMethods.Proofs.Separators

namespace QueryMethods.Name

/-! ## Parsing plain words -/

/-- A word of a name of the given style that folds to a plain word. -/
def Word.Plain (style : Style) (w : Word) : Prop :=
  isPlainWord w.folded ∧ w.text = glyph style w.folded

theorem plain_of_text {style : Style} {ws : List Word} {vs : List String}
    (h : ws.map Word.text = vs.map (glyph style)) (hv : ∀ v ∈ vs, isPlainWord v) :
    ws.map Word.folded = vs ∧ ∀ w ∈ ws, w.Plain style := by
  induction ws generalizing vs with
  | nil =>
    cases vs with
    | nil => exact ⟨rfl, fun _ h => by cases h⟩
    | cons v vs => cases h
  | cons w ws ih =>
    cases vs with
    | nil => cases h
    | cons v vs =>
      rw [List.map_cons, List.map_cons, List.cons.injEq] at h
      have hfold : w.folded = v := by
        rw [Word.folded, h.1]
        exact toLower_glyph style (hv v List.mem_cons_self)
      obtain ⟨ihfold, ihplain⟩ := ih h.2 fun x hx => hv x (List.mem_cons_of_mem v hx)
      refine ⟨by rw [List.map_cons, hfold, ihfold], List.forall_mem_cons.2 ⟨⟨?_, ?_⟩, ihplain⟩⟩
      · rw [hfold]; exact hv v List.mem_cons_self
      · rw [hfold]; exact h.1

/-- The segment that plain words make up. -/
def segmentOf (style : Style) (length : Nat) (ws : List String) : Except ParseError Segment :=
  if ws.isEmpty then .error (.emptySegment length)
  else
    let (phrase, keyword) := trailingPhrase ws
    let field := ws.take (ws.length - phrase.length)
    if field.isEmpty then .error (.missingField keyword.head)
    else .ok ⟨spell style field, keyword⟩

/-- The plan that plain words make up, of which the first is the verb. -/
def planOf (style : Style) (length : Nat) (verb : String) (ws : List String) :
    Except ParseError Plan := do
  let some subject := verbs.lookup verb | throw (.unknownVerb verb)
  match ws.dropWhile (· != "by") with
  | [] => throw .missingBy
  | _ :: predicate =>
    if predicate.isEmpty then throw (.emptySegment length)
    let disjuncts ← (predicate.splitOn "or").mapM fun group =>
      (group.splitOn "and").mapM (segmentOf style length)
    return ⟨subject, disjuncts⟩

theorem lowerFirst_capital {w : String} (h : isPlainWord w) : lowerFirst (capital w) = w := by
  obtain ⟨c, r, hw, hc, hne, hr⟩ := isPlainWord_cases h
  have hcap : (capital w).toList = c.toUpper :: r := by rw [capital, hw, String.toList_ofList]
  rw [lowerFirst, hcap]
  split
  · rename_i heq; cases heq
  · rename_i heq
    cases heq
    split
    · exact toLower_capital h
    · rw [(capital_spec hc).1, ← hw, String.ofList_toList]

theorem fieldOf_glyph (style : Style) {ws : List String} (h : ∀ w ∈ ws, isPlainWord w) :
    fieldOf style (ws.map (glyph style)) = spell style ws := by
  cases style with
  | camel =>
    cases ws with
    | nil => rfl
    | cons w ws =>
      rw [List.map_cons, fieldOf, spell, glyph, lowerFirst_capital (h w List.mem_cons_self)]
      rfl
  | snake =>
    rw [fieldOf, spell]
    congr 1
    exact List.map_id ws

theorem text_of_plain {style : Style} {ws : List Word} (h : ∀ w ∈ ws, w.Plain style) :
    ws.map Word.text = (ws.map Word.folded).map (glyph style) := by
  rw [List.map_map]
  exact List.map_congr_left fun w hw => (h w hw).2

theorem ofWords_of_plain {style : Style} {ws : List Word} (length : Nat)
    (h : ∀ w ∈ ws, w.Plain style) :
    Segment.ofWords style length ws = segmentOf style length (ws.map Word.folded) := by
  have hfield (n : Nat) : fieldOf style ((ws.take n).map Word.text) =
      spell style ((ws.map Word.folded).take n) := by
    have htake : ∀ w ∈ ws.take n, w.Plain style := fun w hw => h w (List.mem_of_mem_take hw)
    rw [text_of_plain htake, ← List.map_take]
    refine fieldOf_glyph style fun v hv => ?_
    obtain ⟨w, hw, rfl⟩ := List.mem_map.1 hv
    exact (htake w hw).1
  rw [Segment.ofWords, segmentOf]
  simp only [List.isEmpty_map, List.length_map, ← List.map_take, hfield]

/-- The groups of words fold to the groups of what the words fold to. -/
theorem splitAt_folded (separator : String) (ws : List Word) :
    (splitAt separator ws).map (List.map Word.folded) = (ws.map Word.folded).splitOn separator := by
  rw [List.splitOn_eq_splitOnP, splitOnP_map]
  rfl

theorem mapM_splitAt {β : Type} {style : Style} {ws : List Word} (h : ∀ w ∈ ws, w.Plain style)
    (separator : String) {f : List Word → Except ParseError β} {g : List String → Except ParseError β}
    (hfg : ∀ group : List Word, (∀ w ∈ group, w.Plain style) → f group = g (group.map Word.folded)) :
    (splitAt separator ws).mapM f = ((ws.map Word.folded).splitOn separator).mapM g := by
  rw [← splitAt_folded, List.mapM_map]
  exact mapM_congr fun group hgroup => hfg group fun w hw => h w (mem_of_mem_splitOnP hgroup hw)

/-- Parsing a spelled name is parsing its words. -/
theorem parse_spell (style : Style) {w : String} {r : List String} (hw : isPlainWord w)
    (hr : ∀ v ∈ r, isPlainWord v) :
    parse (spell style (w :: r)) = planOf style (spell style (w :: r)).utf8ByteSize w r := by
  obtain ⟨first, rest, hwords, hfirst, hrest⟩ := words_spell style hw hr
  obtain ⟨hfold, hplain⟩ := plain_of_text hrest hr
  have hverb : first.folded = w := by rw [Word.folded, hfirst]; exact toLower_eq_self hw
  rw [parse, hwords, planOf]
  -- Both now take the same steps, one over words of the name and one over what these fold to.
  simp only [hverb, hfirst]
  cases verbs.lookup w with
  | none => rfl
  | some subject =>
    have hdrop : r.dropWhile (· != "by") = (rest.dropWhile (·.folded != "by")).map Word.folded := by
      rw [← hfold, List.dropWhile_map]
      rfl
    simp only [hdrop]
    cases hby : rest.dropWhile (·.folded != "by") with
    | nil => rfl
    | cons by_ predicate =>
      have hpred : ∀ v ∈ predicate, v.Plain style := fun v hv =>
        hplain v ((List.dropWhile_suffix _).subset (hby ▸ List.mem_cons_of_mem by_ hv))
      -- There is a second word, so the name shows its style.
      have hstyle : r ≠ [] := by
        rintro rfl
        rw [List.map_eq_nil_iff.1 hfold] at hby
        cases hby
      simp only [List.map_cons, List.isEmpty_map, style_spell style hw hr hstyle]
      rw [mapM_splitAt hpred "or" (g := fun group => (group.splitOn "and").mapM (segmentOf style _))
        fun group hgroup => mapM_splitAt hgroup "and" fun ws hws => ofWords_of_plain _ hws]

/-! ## Segments as words -/

/-- The words that end a group or a field. -/
def reserved : List String :=
  "and" :: "or" :: Keyword.phrases.flatMap (·.1)

/-- A segment as words: those of its field and a phrase of its keyword, or none for `equal`. -/
structure Phrased where
  field : List String
  phrase : List String
  keyword : Keyword
  field_ne_nil : field ≠ []
  field_plain : ∀ w ∈ field, isPlainWord w ∧ w ∉ reserved
  phrase_fits : (phrase, keyword) ∈ Keyword.phrases ∨ phrase = [] ∧ keyword = .equal

namespace Phrased

/-- The words of the field and of the phrase after it. -/
def words (p : Phrased) : List String :=
  p.field ++ p.phrase

/-- The segment that is meant, with the field in the style of the name. -/
def segment (p : Phrased) (style : Style) : Segment :=
  ⟨spell style p.field, p.keyword⟩

theorem phrase_spec : ∀ p ∈ Keyword.phrases,
    (∀ w ∈ p.1, isPlainWord w ∧ w ≠ "and" ∧ w ≠ "or") ∧
      Keyword.phrases.find? (·.1.isSuffixOf p.1) = some p := by
  decide

theorem words_spec (p : Phrased) {w : String} (h : w ∈ p.words) :
    isPlainWord w ∧ w ≠ "and" ∧ w ≠ "or" := by
  rcases List.mem_append.1 h with h | h
  · obtain ⟨hplain, hres⟩ := p.field_plain w h
    refine ⟨hplain, ?_, ?_⟩
    · rintro rfl; exact hres List.mem_cons_self
    · rintro rfl; exact hres (List.mem_cons_of_mem _ List.mem_cons_self)
  · rcases p.phrase_fits with hp | ⟨hp, -⟩
    · exact (phrase_spec _ hp).1 w h
    · rw [hp] at h; cases h

/-- No phrase goes from the end of the words back into the field. -/
theorem suffix_words_iff (p : Phrased) {q : List String × Keyword} (hq : q ∈ Keyword.phrases) :
    q.1 <:+ p.words ↔ q.1 <:+ p.phrase := by
  constructor
  · intro h
    rcases List.suffix_or_suffix_of_suffix h (List.suffix_append p.field p.phrase) with h' | ⟨x, hx⟩
    · exact h'
    · obtain ⟨t, ht⟩ := h
      rw [← hx, ← List.append_assoc] at ht
      have hfield : t ++ x = p.field := List.append_cancel_right ht
      cases x with
      | nil => exact ⟨[], hx.symm⟩
      | cons w x =>
        -- The word before the phrase would be one of the field and one of a phrase.
        have hw : w ∈ p.field := hfield ▸ List.mem_append_right t List.mem_cons_self
        refine absurd (List.mem_cons_of_mem _ (List.mem_cons_of_mem _ ?_)) (p.field_plain w hw).2
        exact List.mem_flatMap.2 ⟨q, hq, hx ▸ List.mem_cons_self⟩
  · intro h
    exact h.trans (List.suffix_append p.field p.phrase)

theorem trailingPhrase_words (p : Phrased) : trailingPhrase p.words = (p.phrase, p.keyword) := by
  have hfind : Keyword.phrases.find? (·.1.isSuffixOf p.words) =
      Keyword.phrases.find? (·.1.isSuffixOf p.phrase) := by
    refine List.find?_congr fun q hq => Bool.eq_iff_iff.2 ?_
    rw [List.isSuffixOf_iff_suffix, List.isSuffixOf_iff_suffix]
    exact p.suffix_words_iff hq
  rw [trailingPhrase, hfind]
  rcases p.phrase_fits with hp | ⟨hp, hk⟩
  · rw [(phrase_spec _ hp).2]; rfl
  · rw [hp, hk]; rfl

theorem segmentOf_words (p : Phrased) (style : Style) (length : Nat) :
    segmentOf style length p.words = .ok (p.segment style) := by
  have htake : p.words.take (p.words.length - p.phrase.length) = p.field := by
    rw [words, List.length_append, Nat.add_sub_cancel, List.take_left']
    rfl
  have hwords : p.words ≠ [] := List.append_ne_nil_of_left_ne_nil p.field_ne_nil p.phrase
  rw [segmentOf, p.trailingPhrase_words]
  simp only [htake, List.isEmpty_eq_false_iff.2 hwords, List.isEmpty_eq_false_iff.2 p.field_ne_nil]
  rfl

end Phrased

/-! ## Plans as words -/

/-- A plan as words: a verb, words without meaning, and groups of segments. -/
structure Spelled where
  verb : String
  subject : Subject
  between : List String
  disjuncts : List (List Phrased)
  verb_fits : (verb, subject) ∈ verbs
  between_plain : ∀ w ∈ between, isPlainWord w ∧ w ≠ "by"
  disjuncts_ne_nil : disjuncts ≠ []
  group_ne_nil : ∀ group ∈ disjuncts, group ≠ []

namespace Spelled

/-- The words of a group, with the word for a conjunction between its segments. -/
def groupWords (group : List Phrased) : List String :=
  ["and"].intercalate (group.map Phrased.words)

/-- The words of all groups, with the word for a disjunction between them. -/
def predicate (s : Spelled) : List String :=
  ["or"].intercalate (s.disjuncts.map groupWords)

/-- The words after the verb. -/
def rest (s : Spelled) : List String :=
  s.between ++ "by" :: s.predicate

/-- The name that the plan is spelled as. -/
def name (s : Spelled) (style : Style) : String :=
  spell style (s.verb :: s.rest)

/-- The plan that is spelled, with the fields in the style of the name. -/
def plan (s : Spelled) (style : Style) : Plan :=
  ⟨s.subject, s.disjuncts.map fun group => group.map (·.segment style)⟩

theorem verb_spec : ∀ v ∈ verbs, isPlainWord v.1 ∧ verbs.lookup v.1 = some v.2 := by
  decide

theorem groupWords_spec {group : List Phrased} {w : String} (h : w ∈ groupWords group) :
    isPlainWord w ∧ w ≠ "or" := by
  rcases mem_intercalate h with rfl | ⟨ws, hws, hw⟩
  · decide
  · obtain ⟨p, -, rfl⟩ := List.mem_map.1 hws
    exact ⟨(p.words_spec hw).1, (p.words_spec hw).2.2⟩

theorem rest_plain (s : Spelled) : ∀ w ∈ s.rest, isPlainWord w := by
  intro w h
  rcases List.mem_append.1 h with h | h
  · exact (s.between_plain w h).1
  · rcases List.mem_cons.1 h with rfl | h
    · decide
    · rcases mem_intercalate h with rfl | ⟨ws, hws, hw⟩
      · decide
      · obtain ⟨group, -, rfl⟩ := List.mem_map.1 hws
        exact (groupWords_spec hw).1

theorem dropWhile_rest (s : Spelled) : s.rest.dropWhile (· != "by") = "by" :: s.predicate := by
  rw [rest, List.dropWhile_append_of_pos fun w hw => by simp [(s.between_plain w hw).2]]
  rfl

theorem predicate_ne_nil (s : Spelled) : s.predicate ≠ [] := by
  refine intercalate_ne_nil (by simp [s.disjuncts_ne_nil]) fun ws hws => ?_
  obtain ⟨group, hgroup, rfl⟩ := List.mem_map.1 hws
  refine intercalate_ne_nil (by simp [s.group_ne_nil group hgroup]) fun ws hws => ?_
  obtain ⟨p, -, rfl⟩ := List.mem_map.1 hws
  exact List.append_ne_nil_of_left_ne_nil p.field_ne_nil p.phrase

theorem splitOn_predicate (s : Spelled) : s.predicate.splitOn "or" = s.disjuncts.map groupWords := by
  refine List.splitOn_intercalate "or" (fun ws hws h => ?_) (by simp [s.disjuncts_ne_nil])
  obtain ⟨group, -, rfl⟩ := List.mem_map.1 hws
  exact (groupWords_spec h).2 rfl

theorem splitOn_groupWords {group : List Phrased} (hne : group ≠ []) :
    (groupWords group).splitOn "and" = group.map Phrased.words := by
  refine List.splitOn_intercalate "and" (fun ws hws h => ?_) (by simp [hne])
  obtain ⟨p, -, rfl⟩ := List.mem_map.1 hws
  exact (p.words_spec h).2.1 rfl

/-- Words of a plan make up the plan. -/
theorem planOf_rest (s : Spelled) (style : Style) (length : Nat) :
    planOf style length s.verb s.rest = .ok (s.plan style) := by
  have hgroups : (s.disjuncts.map groupWords).mapM
        (fun ws => (ws.splitOn "and").mapM (segmentOf style length)) =
      .ok (s.disjuncts.map fun group => group.map (·.segment style)) := by
    rw [List.mapM_map]
    refine mapM_ok fun group hgroup => ?_
    rw [Function.comp_apply, splitOn_groupWords (s.group_ne_nil group hgroup), List.mapM_map]
    exact mapM_ok fun p _ => p.segmentOf_words style length
  rw [planOf, (verb_spec _ s.verb_fits).2, s.dropWhile_rest]
  simp only [List.isEmpty_eq_false_iff.2 s.predicate_ne_nil, s.splitOn_predicate, hgroups]
  rfl

/-- Parsing the name of a plan gives the plan, with its fields in the style of the name. -/
theorem parse_name (s : Spelled) (style : Style) : parse (s.name style) = .ok (s.plan style) := by
  rw [name, parse_spell style (verb_spec _ s.verb_fits).1 s.rest_plain]
  exact s.planOf_rest style _

/-- Two groups, of which the first has two segments and the longest of the nested phrases. -/
def sample : Spelled where
  verb := "count"
  subject := .count
  between := ["all", "users"]
  disjuncts :=
    [[⟨["age"], ["greater", "than", "equal"], .greaterEqual, by decide, by decide, by decide⟩,
        ⟨["first", "name"], [], .equal, by decide, by decide, by decide⟩],
      [⟨["city2"], ["not", "in"], .notOneOf, by decide, by decide, by decide⟩]]
  verb_fits := by decide
  between_plain := by decide
  disjuncts_ne_nil := by decide
  group_ne_nil := by decide

theorem parse_name_sample :
    parse "countAllUsersByAgeGreaterThanEqualAndFirstNameOrCity2NotIn" =
        .ok ⟨.count, [[⟨"age", .greaterEqual⟩, ⟨"firstName", .equal⟩], [⟨"city2", .notOneOf⟩]]⟩ ∧
      parse "count_all_users_by_age_greater_than_equal_and_first_name_or_city2_not_in" =
        .ok ⟨.count, [[⟨"age", .greaterEqual⟩, ⟨"first_name", .equal⟩], [⟨"city2", .notOneOf⟩]]⟩ :=
  ⟨sample.parse_name .camel, sample.parse_name .snake⟩

end Spelled

end QueryMethods.Name
