/-
No value reaches a query text. Two conditions that differ only in their values, and where a dialect
looks at values only in what it looks at (how many items a list has, where a pattern has percent
signs), have filters that differ only in the values they carry.

The proof follows the outlines of templates: a comparison's outline is settled without its values,
and junctions and negations build an outline from outlines.
-/
import QueryMethods.Filter.Native
import QueryMethods.Proofs.Condition.Operand
import QueryMethods.Proofs.Grammar.Special
import QueryMethods.Proofs.Outcome
import QueryMethods.Proofs.Pattern.TextTest
import QueryMethods.Proofs.Template.Outline

namespace QueryMethods

/-! ## Conditions that differ in their values -/

/-- Patterns that are texts without wildcards, with percent signs at the same ends. -/
def Pattern.SameForm (p q : String) : Prop :=
  ∃ (kind : MatchKind) (s s' : String), TextTest.isPlain s.toList ∧ TextTest.isPlain s'.toList ∧
    p = kind.around s ∧ q = kind.around s'

/-- Comparisons of one field by one operator, both with a value or both with a range. Lists of a
comparison with a list are of one length, and patterns are of one form where the dialect is that of
item stores. -/
inductive Comparison.Alike (d : Dialect) : Comparison → Comparison → Prop
  | value {field : String} {op : Operator} {v w : Value}
      (items : op = .oneOf → ∀ xs ys, v = .list xs → w = .list ys → xs.length = ys.length)
      (form : d = .itemExpression → op = .like → ∀ p q, v.pattern .native field = .ok p →
        w.pattern .native field = .ok q → Pattern.SameForm p q) :
      Alike d ⟨field, op, .value v⟩ ⟨field, op, .value w⟩
  | range {field : String} {op : Operator} (lo hi lo' hi' : Value) :
      Alike d ⟨field, op, .range lo hi⟩ ⟨field, op, .range lo' hi'⟩

theorem Comparison.Alike.field_eq {d : Dialect} {k k' : Comparison} (h : k.Alike d k') :
    k.field = k'.field := by
  cases h <;> rfl

namespace Condition

mutual

/-- Conditions that are one tree with comparisons alike. -/
def Alike (d : Dialect) : Condition → Condition → Prop
  | .comparison k, .comparison k' => k.Alike d k'
  | .junction j cs, .junction j' cs' => j = j' ∧ AlikeAll d cs cs'
  | .not c, .not c' => Alike d c c'
  | _, _ => False

/-- Some conditions are alike one by one. -/
def AlikeAll (d : Dialect) : List Condition → List Condition → Prop
  | [], [] => True
  | c :: r, c' :: r' => Alike d c c' ∧ AlikeAll d r r'
  | _, _ => False

end

end Condition

namespace Grammar

/-- A grammar shows nothing of what tells two of its comparisons apart. -/
structure Oblivious (g : Grammar) (R : Comparison → Comparison → Prop) : Prop where
  comparison : ∀ {k k' t t'}, R k k' → g.comparison k = .ok t → g.comparison k' = .ok t' →
    t.outline = t'.outline
  junction : ∀ j nested parts,
    (g.junction j nested parts).outline = g.junction j nested (parts.map Template.outline)
  negation : ∀ t, (g.negation t).outline = g.negation t.outline

/-! ## Trees -/

mutual

theorem outline_template {d : Dialect} {g : Grammar} (hg : g.Oblivious (Comparison.Alike d)) :
    ∀ (nested : Bool) (c c' : Condition) (t t' : Template), c.Alike d c' →
      g.template nested c = .ok t → g.template nested c' = .ok t' → t.outline = t'.outline
  | nested, .comparison k, .comparison k', t, t', h, ht, ht' => by
    rw [template] at ht ht'
    exact hg.comparison h ht ht'
  | nested, .junction j cs, .junction j' cs', t, t', h, ht, ht' => by
    obtain ⟨rfl, hcs⟩ := h
    rw [template] at ht ht'
    split at ht
    · rename_i hj
      rw [if_pos hj] at ht'
      obtain ⟨ts, hts, rfl⟩ := ok_of_map ht
      obtain ⟨ts', hts', rfl⟩ := ok_of_map ht'
      rw [hg.junction, hg.junction, outline_templates hg cs cs' ts ts' hcs hts hts']
    · cases ht
  | nested, .not c, .not c', t, t', h, ht, ht' => by
    rw [template] at ht ht'
    split at ht
    · rename_i hn
      rw [if_pos hn] at ht'
      obtain ⟨u, hu, rfl⟩ := ok_of_map ht
      obtain ⟨u', hu', rfl⟩ := ok_of_map ht'
      rw [hg.negation, hg.negation, outline_template hg false c c' u u' h hu hu']
    · cases ht
  | _, .comparison _, .junction _ _, _, _, h, _, _ => h.elim
  | _, .comparison _, .not _, _, _, h, _, _ => h.elim
  | _, .junction _ _, .comparison _, _, _, h, _, _ => h.elim
  | _, .junction _ _, .not _, _, _, h, _, _ => h.elim
  | _, .not _, .comparison _, _, _, h, _, _ => h.elim
  | _, .not _, .junction _ _, _, _, h, _, _ => h.elim

theorem outline_templates {d : Dialect} {g : Grammar} (hg : g.Oblivious (Comparison.Alike d)) :
    ∀ (cs cs' : List Condition) (ts ts' : List Template), Condition.AlikeAll d cs cs' →
      g.templates cs = .ok ts → g.templates cs' = .ok ts' →
      ts.map Template.outline = ts'.map Template.outline
  | [], [], ts, ts', _, hts, hts' => by
    rw [templates] at hts hts'
    cases hts; cases hts'; rfl
  | c :: cs, c' :: cs', ts, ts', h, hts, hts' => by
    obtain ⟨hc, hcs⟩ := h
    rw [templates] at hts hts'
    obtain ⟨t, ht, hts⟩ := ok_of_bind hts
    obtain ⟨r, hr, hts⟩ := ok_of_bind hts
    obtain ⟨t', ht', hts'⟩ := ok_of_bind hts'
    obtain ⟨r', hr', hts'⟩ := ok_of_bind hts'
    cases hts; cases hts'
    rw [List.map_cons, List.map_cons, outline_template hg true c c' t t' hc ht ht',
      outline_templates hg cs cs' r r' hcs hr hr']
  | [], _ :: _, _, _, h, _, _ => h.elim
  | _ :: _, [], _, _, h, _, _ => h.elim

end

/-! ## Comparisons -/

/-- Two comparisons that a grammar writes by no rule of their own, or by rules of one outline. -/
def SpecialAlike (g : Grammar) (k k' : Comparison) : Prop :=
  (g.special k = none ∧ g.special k' = none) ∨
    ∃ r r', g.special k = some r ∧ g.special k' = some r' ∧
      ∀ t t', r = .ok t → r' = .ok t' → t.outline = t'.outline

variable {d : Dialect} {k k' : Comparison} {t t' : Template}

theorem outline_plain {g : Grammar} (h : k.Alike d k') (ht : g.plain k = .ok t)
    (ht' : g.plain k' = .ok t') : t.outline = t'.outline := by
  cases h with
  | @value field op v w _ _ =>
    cases op with
    | between => cases ht
    | like =>
      obtain ⟨p, -, rfl⟩ := ok_of_map ht
      obtain ⟨p', -, rfl⟩ := ok_of_map ht'
      simp [Piece.blank]
    | oneOf =>
      obtain ⟨xs, -, rfl⟩ := ok_of_map ht
      obtain ⟨xs', -, rfl⟩ := ok_of_map ht'
      simp [Piece.blank]
    | _ => cases ht; cases ht'; simp [Piece.blank]
  | @range field op lo hi lo' hi' =>
    cases op with
    | between => cases ht; cases ht'; simp [Piece.blank, low, high]
    | _ => cases ht

theorem outline_comparison {g : Grammar} (h : k.Alike d k') (hs : g.SpecialAlike k k')
    (ht : g.comparison k = .ok t) (ht' : g.comparison k' = .ok t') : t.outline = t'.outline := by
  unfold comparison at ht ht'
  split at ht <;> split at ht'
  · rcases hs with ⟨h1, h2⟩ | ⟨r, r', h1, h2, hr⟩
    · rw [h1] at ht; rw [h2] at ht'
      exact outline_plain h ht ht'
    · rw [h1] at ht; rw [h2] at ht'
      exact hr t t' ht ht'
  · cases ht'
  · cases ht
  · cases ht

/-- The slots of lists of one length have one outline. -/
theorem outline_slots_congr (field separator : String) {xs ys : List Value}
    (h : xs.length = ys.length) :
    Template.outline (Template.separated separator (xs.map fun v => [.slot field v])) =
      Template.outline (Template.separated separator (ys.map fun v => [.slot field v])) := by
  rw [Template.outline_separated, Template.outline_separated, List.map_map, List.map_map]
  simp only [Function.comp_def, Template.outline_cons, Template.outline_nil, Piece.blank,
    List.map_const', h]

/-- A list that a template is made of shows at most its length. -/
theorem outline_items {require : Value → Except ConditionError (List Value)}
    (hrequire : ∀ {v items}, require v = .ok items → v = .list items) {v w : Value}
    (hlen : ∀ xs ys, v = .list xs → w = .list ys → xs.length = ys.length) (f : List Value → Template)
    (hf : ∀ xs ys, xs.length = ys.length → (f xs).outline = (f ys).outline)
    (ht : (do return f (← require v)) = .ok t) (ht' : (do return f (← require w)) = .ok t') :
    t.outline = t'.outline := by
  obtain ⟨xs, hxs, ht⟩ := ok_of_bind ht
  obtain ⟨ys, hys, ht'⟩ := ok_of_bind ht'
  cases ht
  cases ht'
  exact hf xs ys (hlen xs ys (hrequire hxs) (hrequire hys))

/-! ## Grammars -/

theorem outline_infixJunction (j : Junction) (nested : Bool) (parts : List Template) :
    (infixJunction j nested parts).outline =
      infixJunction j nested (parts.map Template.outline) := by
  rw [infixJunction, Template.outline_grouped, Template.outline_separated]; rfl

theorem outline_negationBefore (t : Template) :
    (negationBefore t).outline = negationBefore t.outline := by
  simp [negationBefore, Piece.blank]

theorem outline_stepJunction (j : Junction) (nested : Bool) (parts : List Template) :
    (stepJunction j nested parts).outline =
      stepJunction j nested (parts.map Template.outline) := by
  simp [stepJunction, Template.outline_separated, Piece.blank, Function.comp_def]

/-- The rules of its own by which a grammar in infix form writes comparisons decide. -/
theorem oblivious_of_special {g : Grammar} (hjunction : g.junction = infixJunction)
    (hnegation : g.negation = negationBefore)
    (hspecial : ∀ {k k'}, k.Alike d k' → g.SpecialAlike k k') : g.Oblivious (Comparison.Alike d) where
  comparison h := outline_comparison h (hspecial h)
  junction := by
    rw [hjunction]
    exact outline_infixJunction
  negation := by
    rw [hnegation]
    exact outline_negationBefore

/-- Where only ranges have a rule of their own, it decides. -/
theorem oblivious_of_ranges {g : Grammar} (hjunction : g.junction = infixJunction)
    (hnegation : g.negation = negationBefore) (hrules : g.HasRulesFor Comparison.IsRange)
    (hrange : ∀ field lo hi lo' hi',
      g.SpecialAlike ⟨field, .between, .range lo hi⟩ ⟨field, .between, .range lo' hi'⟩) :
    g.Oblivious (Comparison.Alike d) := by
  refine oblivious_of_special hjunction hnegation fun h => ?_
  cases h with
  | @value field op v w =>
    have hno (v : Value) : ¬(Comparison.mk field op (.value v)).IsRange := fun h => nomatch h
    exact .inl ⟨hrules (hno v), hrules (hno w)⟩
  | @range field op lo hi lo' hi' =>
    by_cases hop : op = .between
    · subst hop
      exact hrange field lo hi lo' hi'
    · exact .inl ⟨hrules fun h => hop h.1, hrules fun h => hop h.1⟩

/-- Where only lists have a rule of their own, it decides. -/
theorem oblivious_of_lists {g : Grammar} (hjunction : g.junction = infixJunction)
    (hnegation : g.negation = negationBefore) (hrules : g.HasRulesFor Comparison.IsList)
    (hlist : ∀ field v w, (∀ xs ys, v = .list xs → w = .list ys → xs.length = ys.length) →
      g.SpecialAlike ⟨field, .oneOf, .value v⟩ ⟨field, .oneOf, .value w⟩) :
    g.Oblivious (Comparison.Alike d) := by
  refine oblivious_of_special hjunction hnegation fun h => ?_
  cases h with
  | @value field op v w items =>
    by_cases hop : op = .oneOf
    · subst hop
      exact hlist field v w (items rfl)
    · exact .inl ⟨hrules fun h => hop h.1, hrules fun h => hop h.1⟩
  | @range field op lo hi lo' hi' =>
    have hno (lo hi : Value) : ¬(Comparison.mk field op (.range lo hi)).IsList := fun h => nomatch h
    exact .inl ⟨hrules (hno lo hi), hrules (hno lo' hi')⟩

theorem oblivious_atNamed (var : String) : (atNamed var).Oblivious (Comparison.Alike d) := by
  refine oblivious_of_ranges rfl rfl (hasRulesFor_atNamed var) fun field lo hi lo' hi' => ?_
  exact .inr ⟨_, _, rfl, rfl, by rintro _ _ ⟨⟩ ⟨⟩; rfl⟩

theorem oblivious_dollarNamed (var : String) :
    (dollarNamed var).Oblivious (Comparison.Alike d) := by
  refine oblivious_of_ranges rfl rfl (hasRulesFor_dollarNamed var) fun field lo hi lo' hi' => ?_
  exact .inr ⟨_, _, rfl, rfl, by rintro _ _ ⟨⟩ ⟨⟩; rfl⟩

theorem oblivious_driverPositional : driverPositional.Oblivious (Comparison.Alike d) := by
  refine oblivious_of_ranges rfl rfl hasRulesFor_driverPositional fun field lo hi lo' hi' => ?_
  exact .inr ⟨_, _, rfl, rfl, by rintro _ _ ⟨⟩ ⟨⟩; rfl⟩

theorem oblivious_expressionPositional : expressionPositional.Oblivious (Comparison.Alike d) := by
  refine oblivious_of_lists rfl rfl hasRulesFor_expressionPositional fun field v w hlen => ?_
  refine .inr ⟨_, _, rfl, rfl, fun t t' ht ht' => ?_⟩
  refine outline_items Value.ok_of_requireList hlen _ (fun xs ys h => ?_) ht ht'
  simp only [itemSlots, List.cons_append, Template.outline_cons, Template.outline_append,
    outline_slots_congr _ _ h]

theorem oblivious_relationalNamed : relationalNamed.Oblivious (Comparison.Alike d) := by
  refine oblivious_of_lists rfl rfl hasRulesFor_relationalNamed fun field v w _ => ?_
  refine .inr ⟨_, _, rfl, rfl, fun t t' ht ht' => ?_⟩
  -- The list is one value here, so nothing depends on its length.
  obtain ⟨xs, -, ht⟩ := ok_of_bind ht
  obtain ⟨ys, -, ht'⟩ := ok_of_bind ht'
  cases ht
  cases ht'
  rfl

theorem oblivious_relationalPositional : relationalPositional.Oblivious (Comparison.Alike d) := by
  refine oblivious_of_lists rfl rfl hasRulesFor_relationalPositional fun field v w hlen => ?_
  refine .inr ⟨_, _, rfl, rfl, fun t t' ht ht' => ?_⟩
  refine outline_items (fun h => (Value.ok_of_requireItems h).1) hlen _ (fun xs ys h => ?_) ht ht'
  simp only [itemSlots, List.cons_append, Template.outline_cons, Template.outline_append,
    outline_slots_congr _ _ h]

/-- Patterns of one form stand for tests that are written alike. -/
theorem outline_textTest_congr (field : String) {p q : String} {test test' : TextTest}
    (h : Pattern.SameForm p q) (hp : TextTest.ofPattern? p = some test)
    (hq : TextTest.ofPattern? q = some test') :
    (textTest field test).outline = (textTest field test').outline := by
  obtain ⟨kind, s, s', hs, hs', rfl, rfl⟩ := h
  rw [TextTest.ofPattern?_around kind hs] at hp
  rw [TextTest.ofPattern?_around kind hs'] at hq
  cases kind with
  | whole => cases hp; cases hq; simp [textTest, Piece.blank]
  | contains =>
    simp only [Option.some.injEq, Option.ite_none_left_eq_some] at hp hq
    obtain ⟨-, rfl⟩ := hp
    obtain ⟨-, rfl⟩ := hq
    simp [textTest, Piece.blank]
  | startsWith =>
    simp only [Option.some.injEq, Option.ite_none_left_eq_some] at hp hq
    obtain ⟨-, rfl⟩ := hp
    obtain ⟨-, rfl⟩ := hq
    simp [textTest, Piece.blank]
  | endsWith => cases hp

theorem oblivious_itemExpression :
    itemExpression.Oblivious (Comparison.Alike .itemExpression) := by
  refine oblivious_of_special rfl rfl fun h => ?_
  cases h with
  | @range field op => cases op <;> exact .inl ⟨rfl, rfl⟩
  | @value field op v w items form =>
    cases op with
    | oneOf =>
      refine .inr ⟨_, _, rfl, rfl, fun t t' ht ht' => ?_⟩
      refine outline_items (fun h => (Value.ok_of_requireItems h).1) (items rfl) _
        (fun xs ys h => ?_) ht ht'
      simp only [itemSlots, Template.outline_cons, Template.outline_append,
        outline_slots_congr _ _ h]
    | like =>
      refine .inr ⟨_, _, rfl, rfl, fun t t' ht ht' => ?_⟩
      obtain ⟨p, hp, ht⟩ := ok_of_bind ht
      obtain ⟨q, hq, ht'⟩ := ok_of_bind ht'
      -- A pattern that no test stands for has no template.
      split at ht
      · rename_i test htest
        split at ht'
        · rename_i test' htest'
          cases ht
          cases ht'
          exact outline_textTest_congr field (form rfl rfl p q hp hq) htest htest'
        · cases ht'
      · cases ht
    | _ => exact .inl ⟨rfl, rfl⟩

theorem oblivious_searchIndex : searchIndex.Oblivious (Comparison.Alike d) := by
  refine oblivious_of_special rfl rfl fun h => .inr ⟨_, _, rfl, rfl, fun t t' ht ht' => ?_⟩
  cases h with
  | @range field op =>
    cases op with
    | between => cases ht; cases ht'; rfl
    | _ => cases ht
  | @value field op v w items =>
    cases op with
    | between => cases ht
    | like =>
      obtain ⟨p, -, ht⟩ := ok_of_bind ht
      obtain ⟨q, -, ht'⟩ := ok_of_bind ht'
      cases ht
      cases ht'
      rfl
    | oneOf =>
      refine outline_items (fun h => (Value.ok_of_requireItems h).1) (items rfl) _
        (fun xs ys h => ?_) ht ht'
      simp only [List.cons_append, Template.outline_cons, Template.outline_append,
        outline_slots_congr _ _ h]
    | _ => cases ht; cases ht'; rfl

theorem outline_traversalPredicate (h : k.Alike d k') (ht : traversalPredicate k = .ok t)
    (ht' : traversalPredicate k' = .ok t') : t.outline = t'.outline := by
  cases h with
  | @value field op v w =>
    cases op with
    | between => cases ht
    | like =>
      obtain ⟨p, -, rfl⟩ := ok_of_map ht
      obtain ⟨q, -, rfl⟩ := ok_of_map ht'
      rfl
    | oneOf =>
      obtain ⟨xs, -, rfl⟩ := ok_of_map ht
      obtain ⟨ys, -, rfl⟩ := ok_of_map ht'
      rfl
    | _ => cases ht; cases ht'; rfl
  | @range field op =>
    cases op with
    | between => cases ht; cases ht'; rfl
    | _ => cases ht

theorem oblivious_gremlinScript : gremlinScript.Oblivious (Comparison.Alike d) where
  comparison h := outline_comparison h <| .inr ⟨_, _, rfl, rfl, fun t t' ht ht' => by
    obtain ⟨p, hp, rfl⟩ := ok_of_map ht
    obtain ⟨p', hp', rfl⟩ := ok_of_map ht'
    simp only [hasStep, h.field_eq, List.cons_append, Template.outline_cons,
      Template.outline_append, outline_traversalPredicate h hp hp']⟩
  junction := outline_stepJunction
  negation _ := by simp [gremlinScript, Piece.blank]

end Grammar

/-! ## Filters -/

theorem Dialect.oblivious (d : Dialect) : d.grammar.Oblivious (Comparison.Alike d) := by
  cases d with
  | atNamed => exact Grammar.oblivious_atNamed "e"
  | dollarNamed => exact Grammar.oblivious_dollarNamed "n"
  | driverPositional => exact Grammar.oblivious_driverPositional
  | expressionPositional => exact Grammar.oblivious_expressionPositional
  | itemExpression => exact Grammar.oblivious_itemExpression
  | relationalNamed => exact Grammar.oblivious_relationalNamed
  | searchIndex => exact Grammar.oblivious_searchIndex
  | gremlinScript => exact Grammar.oblivious_gremlinScript
  | relationalPositional => exact Grammar.oblivious_relationalPositional

/-- No value reaches a query text: if two conditions that differ only in their values both have a
filter in a dialect, the texts are one, as are the tables and the keys in their order, and there are
as many positional values. -/
theorem Condition.agrees_toFilter {d : Dialect} {c c' : Condition} (h : c.Alike d c')
    (projection : List String) {f f' : Filter} (hf : c.toFilter d projection = .ok f)
    (hf' : c'.toFilter d projection = .ok f') : f.Agrees f' := by
  obtain ⟨t, ht, rfl⟩ := ok_of_map hf
  obtain ⟨t', ht', rfl⟩ := ok_of_map hf'
  exact Marking.agrees_fill _ (Grammar.outline_template d.oblivious false c c' t t' h ht ht') _

/-- A condition over one text and one number, with every kind of operand. -/
def Condition.probe (s : String) (n : Int64) : Condition :=
  .junction .and [.compare "name" .like (.str (s ++ "%")),
    .not (.between "address.zip" (.int n) (.str s)),
    .junction .or [.compare "tags" .oneOf (.list [.str s, .int n]), .compare "tags" .equal (.str s)]]

theorem Condition.agrees_probe :
    (probe "Ada" 1).Alike .itemExpression (probe "x' OR :tags = :tags" 2) ∧
      ∃ f f', (probe "Ada" 1).toFilter .itemExpression ["name", "address.city"] = .ok f ∧
        (probe "x' OR :tags = :tags" 2).toFilter .itemExpression ["name", "address.city"] = .ok f' ∧
        f.Agrees f' := by
  have halike : (probe "Ada" 1).Alike .itemExpression (probe "x' OR :tags = :tags" 2) := by
    refine ⟨rfl, .value (fun h => by cases h) (fun _ _ p q hp hq => ?_), .range .., ⟨rfl, ?_, ?_, trivial⟩,
      trivial⟩
    · cases hp; cases hq
      exact ⟨.startsWith, "Ada", "x' OR :tags = :tags", by decide, by decide, rfl, rfl⟩
    · exact .value (fun _ xs ys hx hy => by cases hx; cases hy; rfl) (fun _ h => by cases h)
    · exact .value (fun h => by cases h) (fun _ h => by cases h)
  exact ⟨halike, _, _, rfl, rfl, agrees_toFilter halike ["name", "address.city"] rfl rfl⟩

end QueryMethods
