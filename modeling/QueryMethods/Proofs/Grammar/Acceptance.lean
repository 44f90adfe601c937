/-
Which conditions a grammar takes. A node of the tree is refused for itself, whatever stands above it
or before it, so a condition is taken if none of its nodes is refused, and otherwise the error is that
of the first node that is. Operators ask for operands that fit.
-/
import QueryMethods.Grammar.Basic
import QueryMethods.Proofs.Condition.Evaluation
import QueryMethods.Proofs.Outcome

namespace QueryMethods

/-! ## Nodes -/

/-- What a condition is made of. -/
inductive Node where
  | comparison (k : Comparison)
  | junction (j : Junction)
  | negation

/-- The comparison that a node is, if it is one. -/
def Node.comparison? : Node → Option Comparison
  | .comparison k => some k
  | _ => none

namespace Condition

mutual

/-- The nodes of a condition from left to right, each before those beneath it. -/
def nodes : Condition → List Node
  | .comparison k => [.comparison k]
  | .junction j cs => .junction j :: nodesAll cs
  | .not c => .negation :: nodes c

/-- The nodes of some conditions, from left to right. -/
def nodesAll : List Condition → List Node
  | [] => []
  | c :: r => nodes c ++ nodesAll r

end

mutual

theorem filterMap_nodes : ∀ c : Condition, c.nodes.filterMap Node.comparison? = c.comparisons
  | .comparison _ => rfl
  | .junction _ cs => filterMap_nodesAll cs
  | .not c => filterMap_nodes c

theorem filterMap_nodesAll : ∀ cs : List Condition,
    (nodesAll cs).filterMap Node.comparison? = comparisonsAll cs
  | [] => rfl
  | c :: cs => by
    rw [nodesAll, List.filterMap_append, filterMap_nodes c, filterMap_nodesAll cs, comparisonsAll]

end

theorem mem_comparisons_iff {c : Condition} {k : Comparison} :
    k ∈ c.comparisons ↔ .comparison k ∈ c.nodes := by
  rw [← filterMap_nodes, List.mem_filterMap]
  constructor
  · rintro ⟨node, hnode, hk⟩
    cases node <;> cases hk
    exact hnode
  · exact fun h => ⟨_, h, rfl⟩

end Condition

/-! ## Refusals -/

namespace Grammar

/-- Why a node has no form in a grammar, if it has none. -/
def refusal? (g : Grammar) : Node → Option ConditionError
  | .comparison k => errorOf? (g.comparison k)
  | .junction j => if g.allowsJunction j then none else some (.unsupported (.junction j) g.dialect)
  | .negation => if g.allowsNegation then none else some (.unsupported .negation g.dialect)

mutual

/-- The first node that is refused decides the error. -/
theorem errorOf?_template (g : Grammar) : ∀ (nested : Bool) (c : Condition),
    errorOf? (g.template nested c) = c.nodes.findSome? g.refusal?
  | nested, .comparison k => by
    rw [template, Condition.nodes, List.findSome?_singleton, refusal?]
  | nested, .junction j cs => by
    rw [template, Condition.nodes, List.findSome?_cons, refusal?]
    split
    · rw [errorOf?_map]
      exact errorOf?_templates g cs
    · rfl
  | nested, .not c => by
    rw [template, Condition.nodes, List.findSome?_cons, refusal?]
    split
    · rw [errorOf?_map]
      exact errorOf?_template g false c
    · rfl

theorem errorOf?_templates (g : Grammar) : ∀ cs : List Condition,
    errorOf? (g.templates cs) = (Condition.nodesAll cs).findSome? g.refusal?
  | [] => rfl
  | c :: cs => by
    rw [templates, Condition.nodesAll, List.findSome?_append, ← errorOf?_template g true c,
      ← errorOf?_templates g cs]
    cases g.template true c with
    | error e => rfl
    | ok t => cases g.templates cs <;> rfl

end

/-- A grammar that lacks no junction and no negation takes a condition if it takes its comparisons. -/
theorem exists_template_iff {g : Grammar} (hjunction : ∀ j, g.allowsJunction j)
    (hnegation : g.allowsNegation) {nested : Bool} {c : Condition} :
    (∃ t, g.template nested c = .ok t) ↔ ∀ k ∈ c.comparisons, ∃ t, g.comparison k = .ok t := by
  simp only [← errorOf?_eq_none_iff, errorOf?_template, List.findSome?_eq_none_iff,
    Condition.mem_comparisons_iff]
  constructor
  · exact fun h k hk => h _ hk
  · intro h node hnode
    cases node with
    | comparison k => exact h k hnode
    | junction j => rw [refusal?, if_pos (hjunction j)]
    | negation => rw [refusal?, if_pos hnegation]

end Grammar

/-! ## Operands -/

/-- The operand is one that the operator takes: both bounds for a range, a text or null for a pattern, a
list for membership, any single value for the other operators. -/
def Comparison.Fits (k : Comparison) : Prop :=
  match k.op, k.operand with
  | .between, .range _ _ => True
  | .between, .value _ | _, .range _ _ => False
  | .like, .value v => v = .null ∨ ∃ s, v = .str s
  | .oneOf, .value v => ∃ items, v = .list items
  | _, .value _ => True

theorem Value.exists_pattern_iff {style : PatternStyle} {field : String} {v : Value} :
    (∃ pattern, v.pattern style field = .ok pattern) ↔ v = .null ∨ ∃ s, v = .str s := by
  cases v <;> simp [Value.pattern]

theorem Value.exists_requireList_iff {field : String} {v : Value} :
    (∃ items, v.requireList field = .ok items) ↔ ∃ items, v = .list items := by
  cases v <;> simp [Value.requireList]

theorem Value.exists_requireItems_iff {field : String} {v : Value} :
    (∃ items, v.requireItems field = .ok items) ↔ (∃ items, v = .list items) ∧ v ≠ .list [] := by
  cases v with
  | list items => cases items <;> simp [Value.requireItems, Value.requireList]
  | _ => simp [Value.requireItems, Value.requireList]

end QueryMethods
