/-
Operands in order: every dialect hands over the operands of a condition from left to right, both
bounds of a range, low before high, the text that a pattern becomes, and a list as a whole or item by
item.
-/
import QueryMethods.Proofs.Grammar.Forms
import QueryMethods.Proofs.Pattern.TextTest
import QueryMethods.Proofs.Template.Parts

namespace QueryMethods

/-! ## Operands -/

namespace Dialect

/-- Whether each item of a list has a reference of its own. -/
def spreadsLists : Dialect → Bool
  | .expressionPositional | .itemExpression | .relationalPositional | .searchIndex => true
  | _ => false

/-- The text that stands for a pattern, or for a null in its place: the pattern itself, for item stores
without the percent signs, which only the functions say; or a regular expression, which finds what the
pattern stands for (`Regex.read?_anchored` with `Regex.finds_anchored_iff`, and for a part of the field
`Regex.read?_unanchored` with `Regex.finds_unanchored_iff`). -/
def patternText (d : Dialect) (pattern : Option String) : String :=
  match d with
  | .itemExpression => String.ofList ((pattern.getD "").toList.filter (· != '%'))
  | .dollarNamed | .gremlinScript => PatternStyle.anchored.write pattern
  | .searchIndex => PatternStyle.unanchored.write pattern
  | _ => pattern.getD ""

/-- Except for item stores, the text is what the grammar's style makes of the pattern. -/
theorem patternText_eq {d : Dialect} (hd : d ≠ .itemExpression) (pattern : Option String) :
    d.patternText pattern = d.grammar.patterns.write pattern := by
  cases d with
  | itemExpression => exact absurd rfl hd
  | _ => rfl

end Dialect

/-- The values that a comparison hands over, in order. -/
def Comparison.values (d : Dialect) (k : Comparison) : List Value :=
  match k.op, k.operand with
  | _, .range lo hi => [lo, hi]
  | .like, .value v => [.str (d.patternText v.text?)]
  | .oneOf, .value v => if d.spreadsLists then v.items?.getD [] else [v]
  | _, .value v => [v]

/-- The values that a condition hands over, from left to right. -/
def Condition.values (d : Dialect) (c : Condition) : List Value :=
  c.comparisons.flatMap (Comparison.values d)

/-! ## Comparisons -/

namespace Grammar

variable {d : Dialect} {k : Comparison} {t : Template}

theorem values_aliasPath (field : String) : (aliasPath field).values = [] := by
  rw [aliasPath, Template.values_separated, List.flatMap_map]
  exact List.flatMap_eq_nil_iff.2 fun _ _ => rfl

theorem values_column (d : Dialect) (field : String) : (d.grammar.column field).values = [] := by
  cases d with
  | itemExpression => exact values_aliasPath field
  | _ => rfl

theorem values_of_plainForm (h : d.grammar.PlainForm k t) (hlist : k.IsList → d.spreadsLists = false)
    (hpattern : k.IsPattern → d ≠ .itemExpression) : t.values = k.values d := by
  cases h with
  | between field lo hi => simp [values_column, Comparison.values, low, high]
  | whole field items =>
    have hd := hlist ⟨rfl, _, rfl⟩
    simp [values_column, Comparison.values, hd]
  | @signed field op v hbetween hlist' =>
    rw [Template.values_append, values_column]
    cases op with
    | between => exact absurd rfl hbetween
    | oneOf => exact absurd rfl hlist'
    | like =>
      have hd := hpattern ⟨rfl, v, rfl⟩
      simp [slotValue, Comparison.values, Dialect.patternText_eq hd]
    | _ => rfl

theorem values_itemSlots (field : String) (items : List Value) :
    (itemSlots field items).values = items :=
  Template.values_slots ", " field items

theorem values_textTest (field : String) (test : TextTest) :
    (textTest field test).values = [.str test.text] := by
  cases test <;> simp [textTest, values_aliasPath, TextTest.text]

/-- A list that a template is made of is what its comparison hands over, item by item. -/
theorem values_of_items {field : String} {v : Value} {items : List Value}
    (hd : d.spreadsLists = true) (h : v = .list items) :
    (Comparison.mk field .oneOf (.value v)).values d = items := by
  subst h
  simp [Comparison.values, hd, Value.items?]

theorem values_searchComparison (h : searchComparison k = .ok t) : t.values = k.values .searchIndex := by
  obtain ⟨field, op, operand⟩ := k
  cases operand with
  | range lo hi =>
    cases op with
    | between => cases h; rfl
    | _ => cases h
  | value v =>
    cases op with
    | between => cases h
    | oneOf =>
      obtain ⟨items, hitems, h⟩ := ok_of_bind h
      cases h
      rw [values_of_items rfl (Value.ok_of_requireItems hitems).1]
      simp [Template.values_slots]
    | like =>
      obtain ⟨pattern, hpattern, h⟩ := ok_of_bind h
      cases h
      rw [Value.pattern_eq hpattern]
      rfl
    | _ => cases h; rfl

theorem values_traversalPredicate (h : traversalPredicate k = .ok t) :
    t.values = k.values .gremlinScript := by
  obtain ⟨field, op, operand⟩ := k
  cases operand with
  | range lo hi =>
    cases op with
    | between => cases h; rfl
    | _ => cases h
  | value v =>
    cases op with
    | between => cases h
    | oneOf => obtain ⟨items, -, rfl⟩ := ok_of_map h; rfl
    | like =>
      obtain ⟨pattern, hpattern, rfl⟩ := ok_of_map h
      rw [Value.pattern_eq hpattern]
      rfl
    | _ => cases h; rfl

theorem values_of_rangeForms {bounds : String → Value → Value → Template}
    (h : d.grammar.RangeForms bounds k t) (hd : d.spreadsLists = false) (hitem : d ≠ .itemExpression)
    (hbounds : ∀ field lo hi, (bounds field lo hi).values = [lo, hi]) : t.values = k.values d := by
  cases h with
  | plain _ h => exact values_of_plainForm h (fun _ => hd) fun _ => hitem
  | range field lo hi => exact hbounds field lo hi

theorem values_of_listForms {listed : String → List Value → Template}
    (h : d.grammar.ListForms listed k t) (hitem : d ≠ .itemExpression)
    (hlisted : ∀ field items,
      (listed field items).values = if d.spreadsLists then items else [.list items]) :
    t.values = k.values d := by
  cases h with
  | plain hk h => exact values_of_plainForm h (fun h => absurd h hk) fun _ => hitem
  | list field items => exact hlisted field items

theorem values_itemForms (h : ItemForms k t) : t.values = k.values .itemExpression := by
  cases h with
  | plain hlist hpattern h =>
    have hform : (Dialect.grammar .itemExpression).PlainForm k t := h
    exact values_of_plainForm hform (fun h => absurd h hlist) fun h => absurd h hpattern
  | list field items =>
    rw [values_of_items rfl rfl]
    simp [values_itemSlots, values_aliasPath]
  | pattern field v h =>
    rw [values_textTest, TextTest.text_eq_of_ofPattern? h]
    rfl

/-- The slots of a comparison carry its operands, in every dialect. -/
theorem values_comparison (h : d.grammar.comparison k = .ok t) : t.values = k.values d := by
  cases d with
  | atNamed => exact values_of_rangeForms (rangeForms_atNamed h) rfl nofun fun _ _ _ => rfl
  | dollarNamed => exact values_of_rangeForms (rangeForms_dollarNamed h) rfl nofun fun _ _ _ => rfl
  | driverPositional =>
    exact values_of_rangeForms (rangeForms_driverPositional h) rfl nofun fun _ _ _ => rfl
  | expressionPositional =>
    refine values_of_listForms (listForms_expressionPositional h) nofun fun field items => ?_
    simp [Dialect.spreadsLists, values_itemSlots]
  | relationalNamed =>
    exact values_of_listForms (listForms_relationalNamed h) nofun fun field items => rfl
  | relationalPositional =>
    refine values_of_listForms (listForms_relationalPositional h) nofun fun field items => ?_
    simp [Dialect.spreadsLists, values_itemSlots]
  | itemExpression => exact values_itemForms (itemForms_of_comparison h)
  | searchIndex => exact values_searchComparison h
  | gremlinScript =>
    obtain ⟨p, hp, rfl⟩ := ok_of_map h
    simp [hasStep, values_traversalPredicate hp]

/-! ## Conditions -/

theorem slots_junction (d : Dialect) (j : Junction) (nested : Bool) (ts : List Template) :
    (d.grammar.junction j nested ts).slots = ts.flatMap Template.slots := by
  have hinfix : (infixJunction j nested ts).slots = ts.flatMap Template.slots := by
    rw [infixJunction, Template.slots_grouped, Template.slots_separated]
  cases d with
  | gremlinScript =>
    show (stepJunction j nested ts).slots = _
    rw [stepJunction, List.cons_append, Template.slots_text, Template.slots_append,
      Template.slots_separated, List.flatMap_map]
    exact List.append_nil _
  | _ => exact hinfix

theorem slots_negation (d : Dialect) (t : Template) : (d.grammar.negation t).slots = t.slots := by
  have haround (before after : String) : Template.slots (.text before :: t ++ [.text after]) = t.slots := by
    rw [List.cons_append, Template.slots_text, Template.slots_append]
    exact List.append_nil _
  cases d <;> exact haround _ _

theorem values_junction (d : Dialect) (j : Junction) (nested : Bool) (ts : List Template) :
    (d.grammar.junction j nested ts).values = ts.flatMap Template.values := by
  rw [Template.values, slots_junction, List.map_flatMap]
  rfl

theorem values_negation (d : Dialect) (t : Template) : (d.grammar.negation t).values = t.values := by
  rw [Template.values, slots_negation, Template.values]

theorem values_template {nested : Bool} {c : Condition} (h : d.grammar.template nested c = .ok t) :
    t.values = c.values d := by
  have hkeeps : d.grammar.Keeps (fun _ => True) fun _ c t => t.values = c.values d := by
    refine ⟨fun _ h => ?_, fun h => ?_, fun h => ?_⟩
    · rw [values_comparison h]
      simp [Condition.values, Condition.comparisons]
    · rw [values_junction]
      induction h with
      | nil => rfl
      | cons hfirst _ ih =>
        rw [List.flatMap_cons, ih, hfirst]
        simp [Condition.values, Condition.comparisons, Condition.comparisonsAll]
    · rw [values_negation, h]
      rfl
  exact hkeeps.template nested c t (fun _ _ => trivial) h

end Grammar

end QueryMethods
