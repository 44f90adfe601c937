/-
Translation in one pass. A context that binds each value when it comes to it, in whatever state it then
is, may bind as it likes: which node is refused, and with what error, is settled by the node alone. The
grammars here make a template first and bind its slots afterwards; where junctions and negations leave
the order of their parts, this comes to the same filter.
-/
import QueryMethods.Proofs.Filter.Allotment
import QueryMethods.Proofs.Grammar.Misfit
import QueryMethods.Proofs.Template.Parts

namespace QueryMethods

variable {σ : Type}

/-! ## Binding -/

/-- How values are bound and columns referred to, given a hint for the name and a state that both may
change. -/
structure Binder (σ : Type) where
  value : String → Value → σ → String × σ
  column : String → σ → String × σ

/-- The template with its columns and slots bound from left to right, and the state after it. -/
def Template.bound (b : Binder σ) : Template → σ → Template × σ
  | [], s => ([], s)
  | .text text :: t, s => (.text text :: (bound b t s).1, (bound b t s).2)
  | .aliased column :: t, s =>
    let r := bound b t (b.column column s).2
    (.aliased (b.column column s).1 :: r.1, r.2)
  | .slot hint v :: t, s =>
    let r := bound b t (b.value hint v s).2
    (.slot (b.value hint v s).1 v :: r.1, r.2)

namespace Grammar

mutual

/-- The bound template of a condition, made in one pass over its tree. -/
def walk (g : Grammar) (b : Binder σ) (nested : Bool) :
    Condition → σ → Except ConditionError (Template × σ)
  | .comparison k, s => do
    let t ← g.comparison k
    return t.bound b s
  | .junction j cs, s =>
    if g.allowsJunction j then do
      let (parts, s) ← walkAll g b cs s
      return (g.junction j nested parts, s)
    else .error (.unsupported (.junction j) g.dialect)
  | .not c, s =>
    if g.allowsNegation then do
      let (inner, s) ← walk g b false c s
      return (g.negation inner, s)
    else .error (.unsupported .negation g.dialect)

/-- The templates of a junction's children, with the state handed on from each to the next. -/
def walkAll (g : Grammar) (b : Binder σ) :
    List Condition → σ → Except ConditionError (List Template × σ)
  | [], s => .ok ([], s)
  | c :: r, s => do
    let (first, s) ← walk g b true c s
    let (others, s) ← walkAll g b r s
    return (first :: others, s)

end

variable (g : Grammar) (b : Binder σ)

mutual

/-- What was bound before a node has no part in whether it is refused. -/
theorem errorOf?_walk : ∀ (nested : Bool) (c : Condition) (s : σ),
    errorOf? (g.walk b nested c s) = c.nodes.findSome? g.refusal?
  | nested, .comparison k, s => by
    rw [walk, Condition.nodes, List.findSome?_singleton, refusal?]
    exact errorOf?_map (fun t => t.bound b s) (g.comparison k)
  | nested, .junction j cs, s => by
    rw [walk, Condition.nodes, List.findSome?_cons, refusal?]
    split
    · exact (errorOf?_map (fun r => (g.junction j nested r.1, r.2)) _).trans (errorOf?_walkAll cs s)
    · rfl
  | nested, .not c, s => by
    rw [walk, Condition.nodes, List.findSome?_cons, refusal?]
    split
    · exact (errorOf?_map (fun r => (g.negation r.1, r.2)) _).trans (errorOf?_walk false c s)
    · rfl

theorem errorOf?_walkAll : ∀ (cs : List Condition) (s : σ),
    errorOf? (g.walkAll b cs s) = (Condition.nodesAll cs).findSome? g.refusal?
  | [], s => by rw [walkAll, Condition.nodesAll]; rfl
  | c :: cs, s => by
    rw [walkAll, Condition.nodesAll, List.findSome?_append, ← errorOf?_walk true c s]
    cases g.walk b true c s with
    | error e => rfl
    | ok r =>
      rw [← errorOf?_walkAll cs r.2]
      exact errorOf?_map (fun others => (r.1 :: others.1, others.2)) (g.walkAll b cs r.2)

end

/-! ## Acceptance -/

/-- Why a node offends a grammar without rules of its own, if it does: the grammar lacks the construct,
or the operator gets an operand that does not fit. -/
def offence? : Node → Option ConditionError
  | .comparison k =>
    if g.allows k.op then k.misfit? fun _ => .range
    else some (.unsupported (.operator k.op) g.dialect)
  | .junction j => if g.allowsJunction j then none else some (.unsupported (.junction j) g.dialect)
  | .negation => if g.allowsNegation then none else some (.unsupported .negation g.dialect)

theorem refusal?_eq_offence? {g : Grammar} (hplain : ∀ k, g.special k = none) :
    g.refusal? = g.offence? := by
  funext node
  cases node with
  | comparison k =>
    rw [refusal?, offence?, comparison, hplain]
    split
    · exact errorOf?_plain g k
    · rfl
  | junction j => rfl
  | negation => rfl

/-- An outcome that the first offending node of a condition decides. -/
structure DecidedByNodes {α : Type} (c : Condition) (outcome : Except ConditionError α) : Prop where
  accepted : (∃ r, outcome = .ok r) ↔ ∀ node ∈ c.nodes, g.offence? node = none
  refused : ∀ e, outcome = .error e ↔ ∃ before node after, c.nodes = before ++ node :: after ∧
    (∀ node ∈ before, g.offence? node = none) ∧ g.offence? node = some e

variable {g b}

theorem decidedByNodes_of_errorOf? {α : Type} {c : Condition} {outcome : Except ConditionError α}
    (h : errorOf? outcome = c.nodes.findSome? g.offence?) : g.DecidedByNodes c outcome where
  accepted := by rw [← errorOf?_eq_none_iff, h, List.findSome?_eq_none_iff]
  refused e := by
    rw [← errorOf?_eq_some_iff, h, List.findSome?_eq_some_iff]
    constructor
    · rintro ⟨before, node, after, hnodes, hnode, hbefore⟩
      exact ⟨before, node, after, hnodes, hbefore, hnode⟩
    · rintro ⟨before, node, after, hnodes, hbefore, hnode⟩
      exact ⟨before, node, after, hnodes, hnode, hbefore⟩

/-- A grammar without rules of its own refuses a condition for the first node, in preorder, that offends
it, and takes it if none does. However values are bound while the condition is walked through, and in
whatever state the walk begins, the outcome is the same. -/
theorem decidedByNodes_walk (hplain : ∀ k, g.special k = none) (c : Condition) :
    (∀ projection, g.DecidedByNodes c (g.filterOf c projection)) ∧
      ∀ {σ : Type} (b : Binder σ) (nested : Bool) (s : σ), g.DecidedByNodes c (g.walk b nested c s) := by
  have hnodes := refusal?_eq_offence? hplain
  refine ⟨fun projection => decidedByNodes_of_errorOf? ?_,
    fun b nested s => decidedByNodes_of_errorOf? ?_⟩
  · rw [← hnodes, ← errorOf?_template g false c]
    exact errorOf?_map _ _
  · rw [← hnodes]
    exact errorOf?_walk g b nested c s

/-- A grammar that has no patterns and no disjunction. -/
def bare : Grammar where
  dialect := .expressionPositional
  allows op := op != .like
  allowsJunction j := j == .and

/-- Values are called by their numbers. -/
def numbers : Binder Nat where
  value _ _ n := ("$" ++ toString (n + 1), n + 1)
  column name n := (name, n)

/-- A pattern under a negation, after a value that is bound and before a disjunction. -/
theorem decidedByNodes_bare :
    (∀ k, bare.special k = none) ∧
      bare.walk numbers false (.junction .and [.compare "age" .equal (.int 1),
          .not (.compare "name" .like .null), .junction .or []]) 0 =
        .error (.unsupported (.operator .like) .expressionPositional) := by
  have hplain : ∀ k, bare.special k = none := fun _ => rfl
  refine ⟨hplain, (((decidedByNodes_walk hplain _).2 numbers false 0).refused _).2 ?_⟩
  refine ⟨[.junction .and, .comparison ⟨"age", .equal, .value (.int 1)⟩, .negation],
    .comparison ⟨"name", .like, .value .null⟩, [.junction .or], rfl, ?_, rfl⟩
  intro node hnode
  simp only [List.mem_cons, List.not_mem_nil, or_false] at hnode
  rcases hnode with rfl | rfl | rfl <;> rfl

end Grammar

/-! ## Templates first -/

namespace Template

variable {b : Binder σ}

/-- Templates bound one after the other. -/
def boundAll (b : Binder σ) : List Template → σ → List Template × σ
  | [], s => ([], s)
  | t :: ts, s =>
    let r := boundAll b ts (t.bound b s).2
    ((t.bound b s).1 :: r.1, r.2)

theorem bound_append (t u : Template) : ∀ s, bound b (t ++ u) s =
    ((bound b t s).1 ++ (bound b u (bound b t s).2).1, (bound b u (bound b t s).2).2) := by
  induction t with
  | nil => intro s; rfl
  | cons p t ih => intro s; cases p <;> simp [bound, ih]

theorem bound_separated (separator : String) (ts : List Template) : ∀ s,
    bound b (separated separator ts) s =
      (separated separator (boundAll b ts s).1, (boundAll b ts s).2) := by
  induction ts with
  | nil => intro s; rfl
  | cons t ts ih =>
    intro s
    cases ts with
    | nil => rw [separated_singleton, boundAll, boundAll, separated_singleton]
    | cons u ts =>
      rw [separated_cons_cons, bound_append, bound, ih, boundAll]
      simp only [boundAll, separated_cons_cons]

theorem bound_enclosed (before after : String) (t : Template) (s : σ) :
    bound b (.text before :: t ++ [.text after]) s =
      (.text before :: (bound b t s).1 ++ [.text after], (bound b t s).2) := by
  rw [List.cons_append, bound, bound_append]
  rfl

end Template

/-- Junctions and negations leave the order of their parts. -/
structure Grammar.KeepsOrder (g : Grammar) : Prop where
  junction : ∀ {σ : Type} (b : Binder σ) (j : Junction) (nested : Bool) (ts : List Template) (s : σ),
    (g.junction j nested ts).bound b s =
      (g.junction j nested (Template.boundAll b ts s).1, (Template.boundAll b ts s).2)
  negation : ∀ {σ : Type} (b : Binder σ) (t : Template) (s : σ),
    (g.negation t).bound b s = (g.negation (t.bound b s).1, (t.bound b s).2)

namespace Grammar

mutual

/-- Binding while the tree is walked through is binding the finished template. -/
theorem KeepsOrder.walk_eq {g : Grammar} (hg : g.KeepsOrder) (b : Binder σ) :
    ∀ (nested : Bool) (c : Condition) (s : σ),
      g.walk b nested c s = (g.template nested c).map (·.bound b s)
  | nested, .comparison k, s => by
    rw [walk, template]
    cases g.comparison k <;> rfl
  | nested, .junction j cs, s => by
    rw [walk, template]
    split
    · rw [hg.walkAll_eq b cs s]
      cases g.templates cs with
      | error e => rfl
      | ok ts => exact congrArg Except.ok (hg.junction b j nested ts s).symm
    · rfl
  | nested, .not c, s => by
    rw [walk, template]
    split
    · rw [hg.walk_eq b false c s]
      cases g.template false c with
      | error e => rfl
      | ok t => exact congrArg Except.ok (hg.negation b t s).symm
    · rfl

theorem KeepsOrder.walkAll_eq {g : Grammar} (hg : g.KeepsOrder) (b : Binder σ) :
    ∀ (cs : List Condition) (s : σ),
      g.walkAll b cs s = (g.templates cs).map (Template.boundAll b · s)
  | [], s => by rw [walkAll, templates]; rfl
  | c :: cs, s => by
    rw [walkAll, templates, hg.walk_eq b true c s]
    cases g.template true c with
    | error e => rfl
    | ok t =>
      show (g.walkAll b cs (t.bound b s).2 >>= _) = _
      rw [hg.walkAll_eq b cs]
      cases g.templates cs <;> rfl

end

theorem bound_infixJunction (b : Binder σ) (j : Junction) (nested : Bool) (ts : List Template) (s : σ) :
    (infixJunction j nested ts).bound b s =
      (infixJunction j nested (Template.boundAll b ts s).1, (Template.boundAll b ts s).2) := by
  have hparts := Template.bound_separated (b := b) (" " ++ j.name ++ " ") ts s
  cases nested with
  | false => exact hparts
  | true =>
    show Template.bound b (.text "(" :: Template.separated _ ts ++ [.text ")"]) s = _
    rw [Template.bound_enclosed, hparts]
    rfl

theorem bound_stepJunction (b : Binder σ) (j : Junction) (nested : Bool) (ts : List Template) (s : σ) :
    (stepJunction j nested ts).bound b s =
      (stepJunction j nested (Template.boundAll b ts s).1, (Template.boundAll b ts s).2) := by
  have hmap (ts : List Template) : ∀ s, Template.boundAll b (ts.map (.text "__." :: ·)) s =
      ((Template.boundAll b ts s).1.map (.text "__." :: ·), (Template.boundAll b ts s).2) := by
    induction ts with
    | nil => intro s; rfl
    | cons t ts ih => intro s; simp [Template.boundAll, Template.bound, ih]
  rw [stepJunction, Template.bound_enclosed, Template.bound_separated, hmap]
  rfl

end Grammar

/-- In every dialect the parts of a condition stand in the order of its tree. -/
theorem Dialect.keepsOrder (d : Dialect) : d.grammar.KeepsOrder := by
  have hbefore {σ : Type} (b : Binder σ) (t : Template) (s : σ) :
      (negationBefore t).bound b s = (negationBefore (t.bound b s).1, (t.bound b s).2) :=
    Template.bound_enclosed "NOT (" ")" t s
  cases d with
  | gremlinScript =>
    exact ⟨Grammar.bound_stepJunction, fun _ t s => Template.bound_enclosed "not(__." ")" t s⟩
  | _ => exact ⟨Grammar.bound_infixJunction, hbefore⟩

/-- Names values after their hints, each name once; the state is the names that are taken. -/
def freshNames : Binder (List String) where
  value hint _ taken := (Placeholder.fresh taken hint, taken ++ [Placeholder.fresh taken hint])
  column name taken := (name, taken)

theorem Template.bound_freshNames (t : Template) : ∀ taken,
    (t.bound freshNames taken).1 = t.allot Placeholder.fresh taken := by
  induction t with
  | nil => intro taken; rfl
  | cons p t ih =>
    intro taken
    cases p with
    | text text => exact congrArg _ (ih taken)
    | aliased column => exact congrArg _ (ih taken)
    | slot hint v => exact congrArg _ (ih _)

/-- A filter with named values is what one pass over the condition makes that names each value when it
comes to it. -/
theorem Condition.toFilter_eq_walk {d : Dialect} {sigil : String} (hd : d.marking = .named sigil)
    (c : Condition) (projection : List String) :
    c.toFilter d projection = (d.grammar.walk freshNames false c []).map fun r =>
      .text (r.1.render (sigil ++ ·) id) (.named r.1.slots) := by
  rw [d.keepsOrder.walk_eq, toFilter, Grammar.filterOf, d.dialect_grammar, hd]
  cases d.grammar.template false c with
  | error e => rfl
  | ok t =>
    show Except.ok (Marking.fill (.named sigil) t _) = Except.ok (Filter.text
      ((t.bound freshNames []).1.render (sigil ++ ·) id) (.named (t.bound freshNames []).1.slots))
    rw [Marking.fill_named, t.bound_freshNames]

end QueryMethods
