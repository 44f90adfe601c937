/-
Operands that do not fit. A comparison whose operand does not fit is refused by naming the operator, the
field, what the operator expects and what was found there. All dialects name the same, except that a
range in the place of a single value is told as a range by most of them and by the kind of its low bound
by two.
-/
import QueryMethods.Filter.Native
import QueryMethods.Proofs.Condition.Operand
import QueryMethods.Proofs.Grammar.Acceptance
import QueryMethods.Proofs.Grammar.Special

namespace QueryMethods

/-- Why the operand does not fit the operator, if it does not, given how a range is told that stands in
the place of a single value. -/
def Comparison.misfit? (told : Value → FoundOperand) (k : Comparison) : Option ConditionError :=
  match k.op, k.operand with
  | .between, .range _ _ => none
  | .between, .value v => some (.wrongKind .between k.field .range v)
  | op, .range lo _ => some (.operandType op k.field .singleValue (told lo))
  | .like, .value v =>
    if v.kind = .string ∨ v.kind = .null then none else some (.wrongKind .like k.field .string v)
  | .oneOf, .value v => if v.kind = .list then none else some (.wrongKind .oneOf k.field .list v)
  | _, .value _ => none

theorem Comparison.misfit?_eq_none_iff {told : Value → FoundOperand} {k : Comparison} :
    k.misfit? told = none ↔ k.Fits := by
  obtain ⟨field, op, operand⟩ := k
  cases operand with
  | range lo hi => cases op <;> simp [misfit?, Fits]
  | value v =>
    cases op with
    | like => cases v <;> simp [misfit?, Fits, Value.kind]
    | oneOf => cases v <;> simp [misfit?, Fits, Value.kind]
    | _ => simp [misfit?, Fits]

/-! ## Values -/

namespace Value

variable {field : String} {v : Value}

theorem errorOf?_pattern (style : PatternStyle) :
    errorOf? (v.pattern style field) =
      if v.kind = .string ∨ v.kind = .null then none else some (.wrongKind .like field .string v) := by
  cases v <;> rfl

theorem errorOf?_requireList :
    errorOf? (v.requireList field) =
      if v.kind = .list then none else some (.wrongKind .oneOf field .list v) := by
  cases v <;> rfl

end Value

/-! ## Common forms -/

namespace Grammar

variable {g : Grammar} {k : Comparison} {e : ConditionError}

/-- The common forms refuse an operand that does not fit, and nothing else. -/
theorem errorOf?_plain (g : Grammar) (k : Comparison) :
    errorOf? (g.plain k) = k.misfit? fun _ => .range := by
  obtain ⟨field, op, operand⟩ := k
  cases operand with
  | range lo hi => cases op <;> rfl
  | value v =>
    cases op with
    | like => exact (errorOf?_map _ _).trans (Value.errorOf?_pattern g.patterns)
    | oneOf => exact (errorOf?_map _ _).trans Value.errorOf?_requireList
    | _ => rfl

/-- The common forms take every operand that fits. -/
theorem exists_plain_iff : (∃ t, g.plain k = .ok t) ↔ k.Fits := by
  rw [← errorOf?_eq_none_iff, errorOf?_plain, Comparison.misfit?_eq_none_iff]

end Grammar

/-! ## Dialects -/

namespace Dialect

/-- Whether a range in the place of a single value is told by the kind of its low bound. -/
def tellsBound : Dialect → Bool
  | .searchIndex | .gremlinScript => true
  | _ => false

/-- How a range with a low bound is told. -/
def told (d : Dialect) (low : Value) : FoundOperand :=
  if d.tellsBound then .value low.kind else .range

end Dialect

/-- What a dialect may have against a comparison. -/
inductive Comparison.Objection (d : Dialect) (k : Comparison) : ConditionError → Prop
  | unsupported : Objection d k (.unsupported (.operator k.op) d)
  | misfit {e : ConditionError} (h : k.misfit? d.told = some e) : Objection d k e
  | emptyList (hop : k.op = .oneOf) (hoperand : k.operand = .value (.list [])) :
      Objection d k (.operandType .oneOf k.field .nonEmptyList .emptyList)

namespace Grammar

open Comparison

variable {d : Dialect} {k : Comparison} {e : ConditionError}

theorem objection_of_plain (hd : d.tellsBound = false) (h : d.grammar.plain k = .error e) :
    k.Objection d e := by
  have htold : d.told = fun _ => .range := by
    funext low
    rw [Dialect.told, hd]
    rfl
  refine .misfit ?_
  rw [htold, ← errorOf?_plain d.grammar, h, errorOf?]

theorem objection_of_special (hd : d.tellsBound = false) (hspecial : d.grammar.special k = none)
    (h : d.grammar.comparison k = .error e) : k.Objection d e := by
  rw [comparison, hspecial] at h
  split at h
  · exact objection_of_plain hd h
  · cases h
    rw [d.dialect_grammar]
    exact .unsupported

theorem objection_of_pattern {style : PatternStyle} {field : String} {v : Value}
    (h : v.pattern style field = .error e) : Objection d ⟨field, .like, .value v⟩ e := by
  refine .misfit ?_
  show (if v.kind = .string ∨ v.kind = .null then none else some (.wrongKind .like field .string v)) =
    some e
  rw [← Value.errorOf?_pattern style, h, errorOf?]

theorem objection_of_requireList {field : String} {v : Value} (h : v.requireList field = .error e) :
    Objection d ⟨field, .oneOf, .value v⟩ e := by
  refine .misfit ?_
  show (if v.kind = .list then none else some (.wrongKind .oneOf field .list v)) = some e
  rw [← Value.errorOf?_requireList, h, errorOf?]

theorem objection_of_requireItems {field : String} {v : Value} (h : v.requireItems field = .error e) :
    Objection d ⟨field, .oneOf, .value v⟩ e := by
  unfold Value.requireItems at h
  split at h
  · rename_i hitems
    cases h
    rw [Value.ok_of_requireList hitems]
    exact .emptyList rfl rfl
  · exact objection_of_requireList h

theorem objection_of_ranges (hd : d.tellsBound = false)
    (hrules : d.grammar.HasRulesFor Comparison.IsRange)
    (hrange : ∀ field lo hi, ∃ t, d.grammar.comparison ⟨field, .between, .range lo hi⟩ = .ok t)
    (h : d.grammar.comparison k = .error e) : k.Objection d e := by
  by_cases hk : k.IsRange
  · obtain ⟨field, op, operand⟩ := k
    obtain ⟨rfl, lo, hi, rfl⟩ := hk
    obtain ⟨t, ht⟩ := hrange field lo hi
    cases h.symm.trans ht
  · exact objection_of_special hd (hrules hk) h

theorem objection_of_lists (hd : d.tellsBound = false)
    (hrules : d.grammar.HasRulesFor Comparison.IsList)
    (hlist : ∀ {field v e}, d.grammar.comparison ⟨field, .oneOf, .value v⟩ = .error e →
      Objection d ⟨field, .oneOf, .value v⟩ e)
    (h : d.grammar.comparison k = .error e) : k.Objection d e := by
  by_cases hk : k.IsList
  · obtain ⟨field, op, operand⟩ := k
    obtain ⟨rfl, v, rfl⟩ := hk
    exact hlist h
  · exact objection_of_special hd (hrules hk) h

theorem objection_of_itemExpression (h : itemExpression.comparison k = .error e) :
    k.Objection .itemExpression e := by
  by_cases hpattern : k.IsPattern
  · obtain ⟨field, op, operand⟩ := k
    obtain ⟨rfl, v, rfl⟩ := hpattern
    rcases error_of_bind h with h | ⟨pattern, -, h⟩
    · exact objection_of_pattern h
    · split at h
      · cases h
      · cases h
        exact .unsupported
  · by_cases hlist : k.IsList
    · obtain ⟨field, op, operand⟩ := k
      obtain ⟨rfl, v, rfl⟩ := hlist
      exact objection_of_requireItems (error_of_map h)
    · have hspecial := hasRulesFor_itemExpression fun h => h.elim hlist hpattern
      exact objection_of_special (d := .itemExpression) rfl hspecial h

/-- The two dialects that tell a range by its low bound have forms for all operands that fit, but for a
list without items. -/
theorem objection_of_searchComparison (h : searchComparison k = .error e) :
    k.Objection .searchIndex e := by
  obtain ⟨field, op, operand⟩ := k
  cases operand with
  | range lo hi => cases op <;> cases h <;> exact .misfit rfl
  | value v =>
    cases op with
    | between => cases h; exact .misfit rfl
    | oneOf => exact objection_of_requireItems (error_of_map h)
    | like => exact objection_of_pattern (error_of_map h)
    | _ => cases h

theorem objection_of_traversalPredicate (h : traversalPredicate k = .error e) :
    k.Objection .gremlinScript e := by
  obtain ⟨field, op, operand⟩ := k
  cases operand with
  | range lo hi => cases op <;> cases h <;> exact .misfit rfl
  | value v =>
    cases op with
    | between => cases h; exact .misfit rfl
    | oneOf => exact objection_of_requireList (error_of_map h)
    | like => exact objection_of_pattern (error_of_map h)
    | _ => cases h

/-- A dialect refuses a comparison only for what it lacks or for the operand. -/
theorem objection_of_comparison (h : d.grammar.comparison k = .error e) : k.Objection d e := by
  cases d with
  | atNamed =>
    exact objection_of_ranges (d := .atNamed) rfl (hasRulesFor_atNamed "e") (fun _ _ _ => ⟨_, rfl⟩) h
  | dollarNamed =>
    exact objection_of_ranges (d := .dollarNamed) rfl (hasRulesFor_dollarNamed "n")
      (fun _ _ _ => ⟨_, rfl⟩) h
  | driverPositional =>
    exact objection_of_ranges (d := .driverPositional) rfl hasRulesFor_driverPositional
      (fun _ _ _ => ⟨_, rfl⟩) h
  | expressionPositional =>
    exact objection_of_lists (d := .expressionPositional) rfl hasRulesFor_expressionPositional
      (fun h => objection_of_requireList (error_of_map h)) h
  | relationalNamed =>
    exact objection_of_lists (d := .relationalNamed) rfl hasRulesFor_relationalNamed
      (fun h => objection_of_requireItems (error_of_map h)) h
  | relationalPositional =>
    exact objection_of_lists (d := .relationalPositional) rfl hasRulesFor_relationalPositional
      (fun h => objection_of_requireItems (error_of_map h)) h
  | itemExpression => exact objection_of_itemExpression h
  | searchIndex => exact objection_of_searchComparison h
  | gremlinScript => exact objection_of_traversalPredicate (error_of_map h)

end Grammar

/-! ## Agreement -/

namespace Comparison

variable {d d' : Dialect} {k : Comparison} {e e' : ConditionError}

/-- What does not fit is told alike, if it is a single value. -/
theorem misfit?_of_value {told told' : Value → FoundOperand} {v : Value} (hk : k.operand = .value v) :
    k.misfit? told = k.misfit? told' := by
  obtain ⟨field, op, operand⟩ := k
  cases hk
  cases op <;> rfl

theorem misfit?_of_range {told : Value → FoundOperand} {lo hi : Value} (hk : k.operand = .range lo hi)
    (h : k.misfit? told = some e) : e = .operandType k.op k.field .singleValue (told lo) := by
  obtain ⟨field, op, operand⟩ := k
  cases hk
  cases op <;> cases h <;> rfl

/-- Two dialects that object to an operand name the same operator, field and expectation, and they found
the same there, unless it is a range and only one of them tells it by its low bound. -/
theorem Objection.agree {op op' : Operator} {field field' : String}
    {expected expected' : ExpectedOperand} {found found' : FoundOperand}
    (h : k.Objection d (.operandType op field expected found))
    (h' : k.Objection d' (.operandType op' field' expected' found')) :
    op = op' ∧ field = field' ∧ expected = expected' ∧
      (found = found' ↔ (∃ v, k.operand = .value v) ∨ d.tellsBound = d'.tellsBound) := by
  cases h with
  | emptyList hop hoperand =>
    -- A list without items fits, so the other dialect has no more against it.
    cases h' with
    | emptyList => exact ⟨rfl, rfl, rfl, iff_of_true rfl (.inl ⟨_, hoperand⟩)⟩
    | misfit h' =>
      rw [misfit?, hop, hoperand] at h'
      cases h'
  | misfit h =>
    cases h' with
    | emptyList hop hoperand =>
      rw [misfit?, hop, hoperand] at h
      cases h
    | misfit h' =>
      cases hoperand : k.operand with
      | value v =>
        rw [misfit?_of_value hoperand, h'] at h
        cases h
        exact ⟨rfl, rfl, rfl, iff_of_true rfl (.inl ⟨v, rfl⟩)⟩
      | range lo hi =>
        cases misfit?_of_range hoperand h
        cases misfit?_of_range hoperand h'
        refine ⟨rfl, rfl, rfl, ?_⟩
        rw [Dialect.told, Dialect.told]
        cases d.tellsBound <;> cases d'.tellsBound <;> simp

end Comparison

namespace Condition

/-- Dialects that refuse the operand of a comparison refuse it in the same words, unless it is a range in
the place of a single value that one of them tells as a range and the other by its low bound. -/
theorem operandErrors_toFilter {k : Comparison} {d d' : Dialect} {projection projection' : List String}
    {op op' : Operator} {field field' : String} {expected expected' : ExpectedOperand}
    {found found' : FoundOperand}
    (h : (comparison k).toFilter d projection = .error (.operandType op field expected found))
    (h' : (comparison k).toFilter d' projection' = .error (.operandType op' field' expected' found')) :
    op = op' ∧ field = field' ∧ expected = expected' ∧
      (found = found' ↔ (∃ v, k.operand = .value v) ∨ d.tellsBound = d'.tellsBound) := by
  have hrefused {d : Dialect} {projection : List String} {e : ConditionError}
      (h : (comparison k).toFilter d projection = .error e) : k.Objection d e :=
    Grammar.objection_of_comparison (error_of_map h)
  exact (hrefused h).agree (hrefused h')

/-- A map in the place of a list, for dialects that look at lists in different ways. -/
theorem operandErrors_map :
    ∃ found found', (compare "tags" .oneOf (.map [])).toFilter .relationalNamed [] =
        .error (.operandType .oneOf "tags" .list found) ∧
      (compare "tags" .oneOf (.map [])).toFilter .gremlinScript [] =
        .error (.operandType .oneOf "tags" .list found') ∧ found = found' := by
  have h : (compare "tags" .oneOf (.map [])).toFilter .relationalNamed [] = .error (.operandType ..) := rfl
  have h' : (compare "tags" .oneOf (.map [])).toFilter .gremlinScript [] = .error (.operandType ..) := rfl
  obtain ⟨-, -, -, hfound⟩ := operandErrors_toFilter h h'
  exact ⟨_, _, h, h', hfound.2 (.inl ⟨_, rfl⟩)⟩

/-- A range that is compared for equality is told in two ways. -/
theorem operandErrors_range :
    (comparison ⟨"age", .equal, .range (.int 1) (.int 2)⟩).toFilter .atNamed [] =
        .error (.operandType .equal "age" .singleValue .range) ∧
      (comparison ⟨"age", .equal, .range (.int 1) (.int 2)⟩).toFilter .searchIndex [] =
        .error (.operandType .equal "age" .singleValue (.value .int)) ∧
      FoundOperand.range ≠ .value .int :=
  ⟨rfl, rfl, nofun⟩

end Condition

end QueryMethods
