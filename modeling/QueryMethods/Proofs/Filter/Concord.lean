/-
The dialects that name their values and keep a list whole. They take the same conditions, except that a
relational store has no form for an empty list, and they hand over the same values under the same
names; only a pattern is handed over in the dialect's own style.

Names are chosen from hints alone, so it is enough that each comparison gives the same hints and the
same values in every such dialect.
-/
import QueryMethods.Proofs.Filter.Allotment
import QueryMethods.Proofs.Filter.Operands
import QueryMethods.Proofs.Grammar.Misfit

namespace QueryMethods

/-- Whether values have names and a list has one name as a whole. -/
def Dialect.namesLists : Dialect → Bool
  | .atNamed | .dollarNamed | .relationalNamed | .gremlinScript => true
  | _ => false

/-- Membership in a list without items. -/
def Comparison.IsEmptyList (k : Comparison) : Prop :=
  k.op = .oneOf ∧ k.operand = .value (.list [])

/-! ## Acceptance -/

namespace Grammar

variable {g : Grammar} {k : Comparison}

theorem exists_comparison_iff_of_special (hallows : g.allows k.op) (h : g.special k = none) :
    (∃ t, g.comparison k = .ok t) ↔ k.Fits := by
  rw [comparison, if_pos hallows, h]
  exact exists_plain_iff

theorem exists_comparison_iff_of_ranges (hallows : ∀ op, g.allows op)
    (hrules : g.HasRulesFor Comparison.IsRange)
    (hrange : ∀ field lo hi, ∃ t, g.comparison ⟨field, .between, .range lo hi⟩ = .ok t) :
    (∃ t, g.comparison k = .ok t) ↔ k.Fits := by
  by_cases hk : k.IsRange
  · obtain ⟨field, op, operand⟩ := k
    obtain ⟨rfl, lo, hi, rfl⟩ := hk
    exact iff_of_true (hrange field lo hi) trivial
  · exact exists_comparison_iff_of_special (hallows k.op) (hrules hk)

/-- Where lists are asked for items and no other rule applies, what fits is taken but for an empty list. -/
theorem exists_comparison_iff_of_items (hallows : g.allows k.op) (hrule : ¬k.IsList → g.special k = none)
    (hitems : ∀ field v, (∃ t, g.comparison ⟨field, .oneOf, .value v⟩ = .ok t) ↔
      ∃ items, v.requireItems field = .ok items) :
    (∃ t, g.comparison k = .ok t) ↔ k.Fits ∧ ¬k.IsEmptyList := by
  by_cases hk : k.IsList
  · obtain ⟨field, op, operand⟩ := k
    obtain ⟨rfl, v, rfl⟩ := hk
    rw [hitems, Value.exists_requireItems_iff]
    simp [Comparison.Fits, Comparison.IsEmptyList]
  · rw [exists_comparison_iff_of_special hallows (hrule hk)]
    refine (and_iff_left ?_).symm
    rintro ⟨hop, hoperand⟩
    exact hk ⟨hop, _, hoperand⟩

theorem exists_relationalNamed_iff :
    (∃ t, relationalNamed.comparison k = .ok t) ↔ k.Fits ∧ ¬k.IsEmptyList :=
  exists_comparison_iff_of_items rfl hasRulesFor_relationalNamed fun _ _ => exists_map_ok_iff

theorem exists_traversalPredicate_iff : (∃ t, traversalPredicate k = .ok t) ↔ k.Fits := by
  obtain ⟨field, op, operand⟩ := k
  cases operand with
  | range lo hi => cases op <;> simp [traversalPredicate, Comparison.Fits]
  | value v =>
    cases op with
    | like => exact exists_map_ok_iff.trans Value.exists_pattern_iff
    | oneOf => exact exists_map_ok_iff.trans Value.exists_requireList_iff
    | _ => simp [traversalPredicate, Comparison.Fits]

/-- These dialects take every comparison whose operand fits, but for one that a relational store has no
form for. -/
theorem exists_comparison_iff {d : Dialect} (hd : d.namesLists) :
    (∃ t, d.grammar.comparison k = .ok t) ↔ k.Fits ∧ (d = .relationalNamed → ¬k.IsEmptyList) := by
  cases d with
  | atNamed =>
    have hfits := exists_comparison_iff_of_ranges (k := k) (fun _ => rfl) (hasRulesFor_atNamed "e")
      fun field lo hi => ⟨_, rfl⟩
    exact hfits.trans (and_iff_left nofun).symm
  | dollarNamed =>
    have hfits := exists_comparison_iff_of_ranges (k := k) (fun _ => rfl) (hasRulesFor_dollarNamed "n")
      fun field lo hi => ⟨_, rfl⟩
    exact hfits.trans (and_iff_left nofun).symm
  | relationalNamed =>
    exact exists_relationalNamed_iff.trans (and_congr_right' (imp_iff_right rfl).symm)
  | gremlinScript =>
    have hstep : (∃ t, gremlinScript.comparison k = .ok t) ↔ ∃ p, traversalPredicate k = .ok p :=
      exists_map_ok_iff
    exact (hstep.trans exists_traversalPredicate_iff).trans (and_iff_left nofun).symm
  | _ => cases hd

end Grammar

/-! ## Hints -/

/-- The hints that a comparison gives for the names of its values, if a list has one name. -/
def Comparison.hints (k : Comparison) : List String :=
  match k.operand with
  | .range _ _ => [k.field ++ "_lo", k.field ++ "_hi"]
  | .value _ => [k.field]

namespace Grammar

variable {d : Dialect} {k : Comparison} {t : Template}

theorem slots_column (d : Dialect) (field : String) : (d.grammar.column field).slots = [] :=
  List.map_eq_nil_iff.1 (values_column d field)

theorem hints_of_plainForm (h : d.grammar.PlainForm k t) : t.slots.map Prod.fst = k.hints := by
  cases h <;> rw [Template.slots_append, slots_column] <;> rfl

theorem hints_of_rangeForms {bounds : String → Value → Value → Template}
    (h : d.grammar.RangeForms bounds k t)
    (hbounds : ∀ field lo hi,
      (bounds field lo hi).slots.map Prod.fst = [field ++ "_lo", field ++ "_hi"]) :
    t.slots.map Prod.fst = k.hints := by
  cases h with
  | plain _ h => exact hints_of_plainForm h
  | range field lo hi => exact hbounds field lo hi

theorem hints_traversalPredicate (h : traversalPredicate k = .ok t) :
    t.slots.map Prod.fst = k.hints := by
  obtain ⟨field, op, operand⟩ := k
  cases operand with
  | range lo hi =>
    cases op with
    | between => cases h; rfl
    | _ => cases h
  | value v =>
    cases op with
    | between => cases h
    | oneOf => obtain ⟨items, -, rfl⟩ := ok_of_map h; rfl
    | like => obtain ⟨pattern, -, rfl⟩ := ok_of_map h; rfl
    | _ => cases h; rfl

theorem hints_comparison (hd : d.namesLists) (h : d.grammar.comparison k = .ok t) :
    t.slots.map Prod.fst = k.hints := by
  cases d with
  | atNamed =>
    exact hints_of_rangeForms (d := .atNamed) (rangeForms_atNamed h) fun _ _ _ => rfl
  | dollarNamed =>
    exact hints_of_rangeForms (d := .dollarNamed) (rangeForms_dollarNamed h) fun _ _ _ => rfl
  | relationalNamed =>
    cases listForms_relationalNamed h with
    | plain _ h => exact hints_of_plainForm (d := .relationalNamed) h
    | list field items => rfl
  | gremlinScript =>
    obtain ⟨p, hp, rfl⟩ := ok_of_map h
    simp [hasStep, hints_traversalPredicate hp]
  | _ => cases hd

theorem hints_template (hd : d.namesLists) {nested : Bool} {c : Condition}
    (h : d.grammar.template nested c = .ok t) :
    t.slots.map Prod.fst = c.comparisons.flatMap Comparison.hints := by
  have hkeeps : d.grammar.Keeps (fun _ => True) fun _ c t =>
      t.slots.map Prod.fst = c.comparisons.flatMap Comparison.hints := by
    refine ⟨fun _ h => ?_, fun h => ?_, fun h => ?_⟩
    · rw [hints_comparison hd h, Condition.comparisons, List.flatMap_singleton]
    · rw [slots_junction, List.map_flatMap, Condition.comparisons]
      induction h with
      | nil => rfl
      | cons hfirst _ ih =>
        rw [List.flatMap_cons, ih, hfirst, Condition.comparisonsAll, List.flatMap_append]
    · rw [slots_negation, h, Condition.comparisons]
  exact hkeeps.template nested c t (fun _ _ => trivial) h

end Grammar

/-! ## Agreement -/

/-- The entries that comparisons make in two dialects, the same for each but for the text of a
pattern. -/
inductive Agreeing (d d' : Dialect) : List Comparison → Entries Value → Entries Value → Prop
  | nil : Agreeing d d' [] [] []
  | same {k : Comparison} {ks : List Comparison} {made m m' : Entries Value} (hk : k.op ≠ .like)
      (hmade : made.map Prod.snd = k.values d) (h : Agreeing d d' ks m m') :
      Agreeing d d' (k :: ks) (made ++ m) (made ++ m')
  | pattern {field : String} {v : Value} {ks : List Comparison} {m m' : Entries Value} (name : String)
      (h : Agreeing d d' ks m m') :
      Agreeing d d' (⟨field, .like, .value v⟩ :: ks) ((name, .str (d.patternText v.text?)) :: m)
        ((name, .str (d'.patternText v.text?)) :: m')

section Agreement

variable {d d' : Dialect}

theorem Comparison.values_congr (hd : d.namesLists) (hd' : d'.namesLists) {k : Comparison}
    (hk : k.op ≠ .like) : k.values d = k.values d' := by
  have hwhole {d : Dialect} (hd : d.namesLists) : d.spreadsLists = false := by
    cases d <;> first | rfl | cases hd
  obtain ⟨field, op, operand⟩ := k
  cases operand with
  | range lo hi => rfl
  | value v =>
    cases op with
    | like => exact absurd rfl hk
    | oneOf => simp only [values, hwhole hd, hwhole hd']
    | _ => rfl

theorem Entries.ext {α : Type} {m m' : Entries α} (hkeys : m.keys = m'.keys)
    (hvalues : m.map Prod.snd = m'.map Prod.snd) : m = m' := by
  rw [← List.zip_unzip m, ← List.zip_unzip m', List.unzip_eq_map, List.unzip_eq_map, hvalues]
  exact congrArg (List.zip · _) hkeys

/-- Entries of the same names that hold the values of comparisons, one after the other, agree. -/
theorem agreeing_of_values (hd : d.namesLists) (hd' : d'.namesLists) {ks : List Comparison}
    (hfits : ∀ k ∈ ks, k.Fits) : ∀ {m m' : Entries Value}, m.keys = m'.keys →
      m.map Prod.snd = ks.flatMap (Comparison.values d) →
      m'.map Prod.snd = ks.flatMap (Comparison.values d') → Agreeing d d' ks m m' := by
  induction ks with
  | nil =>
    intro m m' _ hm hm'
    rw [List.map_eq_nil_iff.1 hm, List.map_eq_nil_iff.1 hm']
    exact .nil
  | cons k ks ih =>
    intro m m' hkeys hm hm'
    obtain ⟨made, m, rfl, hmade, hm⟩ := List.map_eq_append_iff.1 hm
    obtain ⟨made', m', rfl, hmade', hm'⟩ := List.map_eq_append_iff.1 hm'
    have hrest (h : Entries.keys m = Entries.keys m') : Agreeing d d' ks m m' :=
      ih (fun k hk => hfits k (List.mem_cons_of_mem _ hk)) h hm hm'
    by_cases hlike : k.op = .like
    · obtain ⟨field, op, operand⟩ := k
      cases hlike
      cases operand with
      | range lo hi => exact (hfits _ List.mem_cons_self).elim
      | value v =>
        obtain ⟨⟨name, value⟩, rfl, rfl⟩ := List.map_eq_singleton_iff.1 hmade
        obtain ⟨⟨name', value'⟩, rfl, rfl⟩ := List.map_eq_singleton_iff.1 hmade'
        obtain ⟨hname, htail⟩ := List.cons.inj hkeys
        cases hname
        exact .pattern name (hrest htail)
    · have hsame : made.map Prod.snd = made'.map Prod.snd := by
        rw [hmade, hmade', Comparison.values_congr hd hd' hlike]
      have hlength : (made.map Prod.fst).length = (made'.map Prod.fst).length := by
        have hvalues := congrArg List.length hsame
        simpa using hvalues
      rw [Entries.keys, Entries.keys, List.map_append, List.map_append] at hkeys
      obtain ⟨hnames, hkeys⟩ := List.append_inj hkeys hlength
      rw [← Entries.ext hnames hsame]
      exact .same hlike hmade (hrest hkeys)

theorem Agreeing.keys_eq {ks : List Comparison} {m m' : Entries Value} (h : Agreeing d d' ks m m') :
    m.keys = m'.keys := by
  induction h with
  | nil => rfl
  | same _ _ _ ih =>
    rw [Entries.keys, Entries.keys, List.map_append, List.map_append]
    exact congrArg _ ih
  | pattern name _ ih => exact congrArg (name :: ·) ih

/-- Entries agree entirely in dialects that write patterns alike. -/
theorem Agreeing.eq_of_patternText {ks : List Comparison} {m m' : Entries Value}
    (h : Agreeing d d' ks m m') (htext : d.patternText = d'.patternText) : m = m' := by
  induction h with
  | nil => rfl
  | same _ _ _ ih => rw [ih]
  | pattern name _ ih => rw [ih, htext]

end Agreement

/-! ## Filters -/

namespace Condition

/-- A dialect has a filter for the condition. -/
def AcceptedBy (c : Condition) (d : Dialect) (projection : List String) : Prop :=
  ∃ f, c.toFilter d projection = .ok f

variable {d : Dialect} {c : Condition} {projection : List String}

/-- The filter of a condition in these dialects: the names of its values are made of the hints, and the
values are those of its comparisons. -/
theorem named_toFilter (hd : d.namesLists) {f : Filter} (h : c.toFilter d projection = .ok f) :
    ∃ query m, f = .text query (.named m) ∧
      m.keys = Placeholder.assign [] (c.comparisons.flatMap Comparison.hints) ∧
      m.map Prod.snd = c.values d := by
  obtain ⟨t, ht, rfl⟩ := ok_of_map h
  have hfill : ∃ query, d.grammar.dialect.marking.fill t (projection.map d.grammar.column) =
      .text query (.named (t.allot Placeholder.fresh []).slots) := by
    cases d with
    | atNamed | dollarNamed | relationalNamed | gremlinScript => exact ⟨_, Marking.fill_named _ t _⟩
    | _ => cases hd
  obtain ⟨query, hquery⟩ := hfill
  refine ⟨query, _, hquery, ?_, ?_⟩
  · rw [Entries.keys, Template.slotNames_allot, Grammar.hints_template hd ht]
  · rw [← Grammar.values_template ht]
    exact Template.values_allot Placeholder.fresh t []

theorem acceptedBy_iff (hd : d.namesLists) :
    c.AcceptedBy d projection ↔
      ∀ k ∈ c.comparisons, k.Fits ∧ (d = .relationalNamed → ¬k.IsEmptyList) := by
  have hjunction : ∀ j, d.grammar.allowsJunction j := by
    cases d with
    | atNamed | dollarNamed | relationalNamed | gremlinScript => exact fun _ => rfl
    | _ => cases hd
  have hnegation : d.grammar.allowsNegation := by
    cases d with
    | atNamed | dollarNamed | relationalNamed | gremlinScript => rfl
    | _ => cases hd
  simp only [← Grammar.exists_comparison_iff hd]
  exact exists_map_ok_iff.trans (Grammar.exists_template_iff hjunction hnegation)

/-- Of the dialects that name their values and keep a list whole, three have a filter for the same
conditions, and the relational one for those of them in which no list is empty. Any two that have one
hand over the same names in the same order and the same values under them, except for the patterns, and
these are the same too where the two write patterns alike. -/
theorem concord_toFilter (c : Condition) (projection : List String) :
    (c.AcceptedBy .dollarNamed projection ↔ c.AcceptedBy .atNamed projection) ∧
      (c.AcceptedBy .gremlinScript projection ↔ c.AcceptedBy .atNamed projection) ∧
      (c.AcceptedBy .relationalNamed projection ↔
        c.AcceptedBy .atNamed projection ∧ ∀ k ∈ c.comparisons, ¬k.IsEmptyList) ∧
      (∀ d d' : Dialect, d.namesLists → d'.namesLists → ∀ f f' : Filter,
        c.toFilter d projection = .ok f → c.toFilter d' projection = .ok f' →
          ∃ query m query' m', f = .text query (.named m) ∧ f' = .text query' (.named m') ∧
            m.keys = m'.keys ∧ Agreeing d d' c.comparisons m m' ∧
            (d.patternText = d'.patternText → m = m')) ∧
      Dialect.dollarNamed.patternText = Dialect.gremlinScript.patternText := by
  have hfits (d : Dialect) (hd : d.namesLists) (hplain : d ≠ .relationalNamed) :
      c.AcceptedBy d projection ↔ ∀ k ∈ c.comparisons, k.Fits := by
    rw [acceptedBy_iff hd]
    exact forall₂_congr fun k _ => and_iff_left fun h => absurd h hplain
  have hat : c.AcceptedBy .atNamed projection ↔ ∀ k ∈ c.comparisons, k.Fits := hfits .atNamed rfl nofun
  refine ⟨(hfits .dollarNamed rfl nofun).trans hat.symm,
    (hfits .gremlinScript rfl nofun).trans hat.symm, ?_, ?_, rfl⟩
  · rw [hat, acceptedBy_iff rfl, ← forall₂_and]
    exact forall₂_congr fun k _ => and_congr_right' (imp_iff_right rfl)
  · intro d d' hd hd' f f' hf hf'
    have hoperands := (acceptedBy_iff hd).1 ⟨f, hf⟩
    obtain ⟨query, m, rfl, hkeys, hvalues⟩ := named_toFilter hd hf
    obtain ⟨query', m', rfl, hkeys', hvalues'⟩ := named_toFilter hd' hf'
    have hagreeing : Agreeing d d' c.comparisons m m' :=
      agreeing_of_values hd hd' (fun k hk => (hoperands k hk).1) (hkeys.trans hkeys'.symm) hvalues
        hvalues'
    exact ⟨query, m, query', m', rfl, rfl, hagreeing.keys_eq, hagreeing, hagreeing.eq_of_patternText⟩

/-- A range whose names another field asks for, under a pattern. -/
def overlapping : Condition :=
  .junction .and [.compare "name" .like (.str "A%"), .between "age" (.int 1) (.int 2),
    .not (.compare "age_lo" .oneOf (.list [.int 3, .null]))]

theorem concord_overlapping :
    ∃ query m query' m', overlapping.toFilter .relationalNamed [] = .ok (.text query (.named m)) ∧
      overlapping.toFilter .gremlinScript [] = .ok (.text query' (.named m')) ∧
      m.keys = ["name", "age_lo", "age_hi", "age_lo_1"] ∧ m.keys = m'.keys ∧
      Agreeing .relationalNamed .gremlinScript overlapping.comparisons m m' := by
  obtain ⟨-, -, -, hagree, -⟩ := concord_toFilter overlapping []
  obtain ⟨query, m, query', m', hf, hf', hkeys, hagreeing, -⟩ :=
    hagree .relationalNamed .gremlinScript rfl rfl _ _ rfl rfl
  cases hf
  cases hf'
  exact ⟨_, _, _, _, rfl, rfl, by decide +kernel, hkeys, hagreeing⟩

end Condition

end QueryMethods
