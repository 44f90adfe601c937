/-
Forms of comparisons: a comparison that has no rule of its own is written in one of three forms, as
a column, a sign and a value, as a column between two bounds, or as a column and a whole list. What a
grammar writes in another form is told once, grammar by grammar, and what is kept by comparisons,
junctions and negations is kept by whole trees.
-/
import QueryMethods.Filter.Native
import QueryMethods.Proofs.Condition.Evaluation
import QueryMethods.Proofs.Condition.Operand
import QueryMethods.Proofs.Grammar.Special
import QueryMethods.Proofs.Outcome

namespace QueryMethods

/-- The value that stands for a pattern operand, or the text of a null. -/
theorem Value.pattern_eq {style : PatternStyle} {field pattern : String} {v : Value}
    (h : v.pattern style field = .ok pattern) : pattern = style.write v.text? := by
  cases v <;> cases h <;> rfl

namespace Grammar

variable {g : Grammar} {k : Comparison} {t : Template}

/-- The value in the slot of a comparison with one value. -/
def slotValue (g : Grammar) (op : Operator) (v : Value) : Value :=
  if op = .like then .str (g.patterns.write v.text?) else v

/-- The forms of the comparisons that a grammar writes by the common rule. -/
inductive PlainForm (g : Grammar) : Comparison → Template → Prop
  | signed {field : String} {op : Operator} (v : Value) (hbetween : op ≠ .between)
      (hlist : op ≠ .oneOf) :
      PlainForm g ⟨field, op, .value v⟩
        (g.column field ++ [.text (" " ++ g.symbol op ++ " "), .slot field (g.slotValue op v)])
  | between (field : String) (lo hi : Value) :
      PlainForm g ⟨field, .between, .range lo hi⟩
        (g.column field ++ [.text " BETWEEN ", low field lo, .text " AND ", high field hi])
  | whole (field : String) (items : List Value) :
      PlainForm g ⟨field, .oneOf, .value (.list items)⟩
        (g.column field ++ [.text " IN ", .slot field (.list items)])

theorem plainForm_of_plain (h : g.plain k = .ok t) : g.PlainForm k t := by
  obtain ⟨field, op, operand⟩ := k
  cases operand with
  | range lo hi =>
    cases op with
    | between => cases h; exact .between field lo hi
    | _ => cases h
  | value v =>
    cases op with
    | between => cases h
    | oneOf =>
      obtain ⟨items, hitems, rfl⟩ := ok_of_map h
      rw [Value.ok_of_requireList hitems]
      exact .whole field items
    | like =>
      obtain ⟨pattern, hpattern, rfl⟩ := ok_of_map h
      rw [Value.pattern_eq hpattern]
      exact .signed v nofun nofun
    | _ => cases h; exact .signed v nofun nofun

/-- A comparison without a rule of its own has one of the common forms. -/
theorem plainForm_of_comparison (hspecial : g.special k = none) (h : g.comparison k = .ok t) :
    g.PlainForm k t := by
  rw [comparison, hspecial] at h
  split at h
  · exact plainForm_of_plain h
  · cases h

/-! ## Grammars with rules for ranges -/

/-- The forms of comparisons where ranges have a form of their own. -/
inductive RangeForms (g : Grammar) (bounds : String → Value → Value → Template) :
    Comparison → Template → Prop
  | plain {k : Comparison} {t : Template} (hk : ¬k.IsRange) (h : g.PlainForm k t) :
      RangeForms g bounds k t
  | range (field : String) (lo hi : Value) :
      RangeForms g bounds ⟨field, .between, .range lo hi⟩ (bounds field lo hi)

/-- A grammar that has rules for ranges writes each range by them. -/
theorem rangeForms_of_rules {bounds : String → Value → Value → Template}
    (hrules : g.HasRulesFor Comparison.IsRange)
    (hrange : ∀ field lo hi, g.comparison ⟨field, .between, .range lo hi⟩ = .ok (bounds field lo hi))
    (h : g.comparison k = .ok t) : g.RangeForms bounds k t := by
  by_cases hk : k.IsRange
  · obtain ⟨field, op, operand⟩ := k
    obtain ⟨rfl, lo, hi, rfl⟩ := hk
    rw [hrange] at h
    cases h
    exact .range field lo hi
  · exact .plain hk (plainForm_of_comparison (hrules hk) h)

theorem rangeForms_atNamed {var : String} (h : (atNamed var).comparison k = .ok t) :
    (atNamed var).RangeForms (fun field lo hi => [.text ("(" ++ member var field ++ " >= "),
      low field lo, .text (" AND " ++ member var field ++ " <= "), high field hi, .text ")"]) k t :=
  rangeForms_of_rules (hasRulesFor_atNamed var) (fun _ _ _ => rfl) h

theorem rangeForms_dollarNamed {var : String} (h : (dollarNamed var).comparison k = .ok t) :
    (dollarNamed var).RangeForms (fun field lo hi =>
      [low field lo, .text (" <= " ++ member var field ++ " <= "), high field hi]) k t :=
  rangeForms_of_rules (hasRulesFor_dollarNamed var) (fun _ _ _ => rfl) h

theorem rangeForms_driverPositional (h : driverPositional.comparison k = .ok t) :
    driverPositional.RangeForms (fun field lo hi => [.text (field ++ " >= "), low field lo,
      .text (" AND " ++ field ++ " <= "), high field hi]) k t :=
  rangeForms_of_rules hasRulesFor_driverPositional (fun _ _ _ => rfl) h

/-! ## Grammars with rules for lists -/

/-- The forms of comparisons where lists have a form of their own. -/
inductive ListForms (g : Grammar) (listed : String → List Value → Template) :
    Comparison → Template → Prop
  | plain {k : Comparison} {t : Template} (hk : ¬k.IsList) (h : g.PlainForm k t) :
      ListForms g listed k t
  | list (field : String) (items : List Value) :
      ListForms g listed ⟨field, .oneOf, .value (.list items)⟩ (listed field items)

/-- A grammar that has rules for lists writes each list by them. -/
theorem listForms_of_rules {listed : String → List Value → Template}
    (hrules : g.HasRulesFor Comparison.IsList)
    (hlist : ∀ {field v t}, g.comparison ⟨field, .oneOf, .value v⟩ = .ok t →
      ∃ items, v = .list items ∧ t = listed field items)
    (h : g.comparison k = .ok t) : g.ListForms listed k t := by
  by_cases hk : k.IsList
  · obtain ⟨field, op, operand⟩ := k
    obtain ⟨rfl, v, rfl⟩ := hk
    obtain ⟨items, rfl, rfl⟩ := hlist h
    exact .list field items
  · exact .plain hk (plainForm_of_comparison (hrules hk) h)

theorem listForms_expressionPositional (h : expressionPositional.comparison k = .ok t) :
    expressionPositional.ListForms (fun field items =>
      .text (Text.doubledQuoted field ++ " IN [") :: itemSlots field items ++ [.text "]"]) k t := by
  refine listForms_of_rules hasRulesFor_expressionPositional (fun h => ?_) h
  obtain ⟨items, hitems, h⟩ := ok_of_bind h
  cases h
  exact ⟨items, Value.ok_of_requireList hitems, rfl⟩

/-- A list stays whole in its parameter, whatever its items. -/
theorem listForms_relationalNamed (h : relationalNamed.comparison k = .ok t) :
    relationalNamed.ListForms (fun field items =>
      [.text (field ++ " IN ("), .slot field (.list items), .text ")"]) k t := by
  refine listForms_of_rules hasRulesFor_relationalNamed (fun h => ?_) h
  obtain ⟨items, hitems, h⟩ := ok_of_bind h
  cases h
  obtain ⟨rfl, -⟩ := Value.ok_of_requireItems hitems
  exact ⟨items, rfl, rfl⟩

theorem listForms_relationalPositional (h : relationalPositional.comparison k = .ok t) :
    relationalPositional.ListForms (fun field items =>
      .text (field ++ " IN (") :: itemSlots field items ++ [.text ")"]) k t := by
  refine listForms_of_rules hasRulesFor_relationalPositional (fun h => ?_) h
  obtain ⟨items, hitems, h⟩ := ok_of_bind h
  cases h
  exact ⟨items, (Value.ok_of_requireItems hitems).1, rfl⟩

/-! ## Item stores -/

/-- The forms of comparisons for item stores, where lists and patterns have forms of their own. -/
inductive ItemForms : Comparison → Template → Prop
  | plain {k : Comparison} {t : Template} (hlist : ¬k.IsList) (hpattern : ¬k.IsPattern)
      (h : itemExpression.PlainForm k t) : ItemForms k t
  | list (field : String) (items : List Value) :
      ItemForms ⟨field, .oneOf, .value (.list items)⟩
        (aliasPath field ++ .text " IN (" :: itemSlots field items ++ [.text ")"])
  | pattern (field : String) (v : Value) {test : TextTest}
      (h : TextTest.ofPattern? (PatternStyle.native.write v.text?) = some test) :
      ItemForms ⟨field, .like, .value v⟩ (textTest field test)

theorem itemForms_of_comparison (h : itemExpression.comparison k = .ok t) : ItemForms k t := by
  by_cases hpattern : k.IsPattern
  · obtain ⟨field, op, operand⟩ := k
    obtain ⟨rfl, v, rfl⟩ := hpattern
    obtain ⟨pattern, hpattern, h⟩ := ok_of_bind h
    rw [Value.pattern_eq hpattern] at h
    split at h
    · rename_i test htest
      cases h
      exact .pattern field v htest
    · cases h
  · by_cases hlist : k.IsList
    · obtain ⟨field, op, operand⟩ := k
      obtain ⟨rfl, v, rfl⟩ := hlist
      obtain ⟨items, hitems, h⟩ := ok_of_bind h
      cases h
      obtain ⟨rfl, -⟩ := Value.ok_of_requireItems hitems
      exact .list field items
    · have hspecial := hasRulesFor_itemExpression fun h => h.elim hlist hpattern
      exact .plain hlist hpattern (plainForm_of_comparison hspecial h)

/-! ## Trees -/

/-- A relation between conditions and their templates, nested or not, that holds of the comparisons
in question and that junctions and negations keep. -/
structure Keeps (g : Grammar) (P : Comparison → Prop) (R : Bool → Condition → Template → Prop) :
    Prop where
  comparison : ∀ {nested k t}, P k → g.comparison k = .ok t → R nested (.comparison k) t
  junction : ∀ {nested j cs ts}, List.Forall₂ (R true) cs ts →
    R nested (.junction j cs) (g.junction j nested ts)
  negation : ∀ {nested c t}, R false c t → R nested (.not c) (g.negation t)

variable {P : Comparison → Prop} {R : Bool → Condition → Template → Prop}

/-- What holds of each related template holds of all. -/
theorem forall_of_forall₂ {R : Condition → Template → Prop} {cs : List Condition}
    {ts : List Template} (h : List.Forall₂ R cs ts) {Q : Template → Prop}
    (hQ : ∀ c t, R c t → Q t) : ∀ t ∈ ts, Q t := by
  induction h with
  | nil => exact nofun
  | cons hfirst _ ih => exact List.forall_mem_cons.2 ⟨hQ _ _ hfirst, ih⟩

mutual

theorem Keeps.template (hg : g.Keeps P R) : ∀ (nested : Bool) (c : Condition) (t : Template),
    (∀ k ∈ c.comparisons, P k) → g.template nested c = .ok t → R nested c t
  | nested, .comparison k, t, hP, ht => by
    rw [Grammar.template] at ht
    exact hg.comparison (hP k List.mem_cons_self) ht
  | nested, .junction j cs, t, hP, ht => by
    rw [Grammar.template] at ht
    split at ht
    · obtain ⟨ts, hts, rfl⟩ := ok_of_map ht
      exact hg.junction (hg.templates cs ts hP hts)
    · cases ht
  | nested, .not c, t, hP, ht => by
    rw [Grammar.template] at ht
    split at ht
    · obtain ⟨u, hu, rfl⟩ := ok_of_map ht
      exact hg.negation (hg.template false c u hP hu)
    · cases ht

theorem Keeps.templates (hg : g.Keeps P R) : ∀ (cs : List Condition) (ts : List Template),
    (∀ k ∈ Condition.comparisonsAll cs, P k) → g.templates cs = .ok ts →
      List.Forall₂ (R true) cs ts
  | [], ts, _, hts => by
    rw [Grammar.templates] at hts
    cases hts
    exact .nil
  | c :: cs, ts, hP, hts => by
    rw [Grammar.templates] at hts
    obtain ⟨t, ht, hts⟩ := ok_of_bind hts
    obtain ⟨r, hr, hts⟩ := ok_of_bind hts
    cases hts
    exact .cons (hg.template true c t (fun k hk => hP k (List.mem_append_left _ hk)) ht)
      (hg.templates cs r (fun k hk => hP k (List.mem_append_right _ hk)) hr)

end

end Grammar

end QueryMethods
