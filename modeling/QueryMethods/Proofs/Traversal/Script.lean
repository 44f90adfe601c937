/-
Scripts read back. The text of a condition's traversal script is the text of one step, from which the
condition is recovered with the script's parameters: the same tree, every key as it stands between its
quotes, and every operand, with patterns as regular expressions.
-/
import QueryMethods.Proofs.Filter.Allotment
import QueryMethods.Proofs.Grammar.Forms
import QueryMethods.Proofs.Reading.Comparisons
import QueryMethods.Proofs.Template.Parts
import QueryMethods.Proofs.Text.Quoting
import QueryMethods.Proofs.Traversal.Step

namespace QueryMethods

/-! ## Conditions with keys -/

/-- The comparison with its field as a key is written and its pattern as a regular expression, which finds
in the whole field what the pattern stands for (`Regex.read?_anchored` with `Regex.finds_anchored_iff`). -/
def Comparison.keyed (k : Comparison) : Comparison :=
  { k.written .anchored with field := Text.escapeQuotes k.field }

namespace Condition

mutual

/-- The same tree with other comparisons. -/
def map (f : Comparison → Comparison) : Condition → Condition
  | .comparison k => .comparison (f k)
  | .junction j cs => .junction j (mapAll f cs)
  | .not c => .not (map f c)

/-- The same trees with other comparisons. -/
def mapAll (f : Comparison → Comparison) : List Condition → List Condition
  | [] => []
  | c :: r => map f c :: mapAll f r

end

end Condition

/-! ## From steps to conditions -/

namespace Traversal

/-- The operator that a function stands for. -/
def Function.operator : Function → Operator
  | .gt => .greaterThan
  | .gte => .greaterEqual
  | .lt => .lessThan
  | .lte => .lessEqual
  | .within => .oneOf
  | .regex => .like

/-- The comparison that a predicate makes of its key, with the values that its names stand for. -/
def Predicate.comparison? (entries : Entries Value) (key : String) : Predicate → Option Comparison
  | .equal name => (fun v => ⟨key, .equal, .value v⟩) <$> entries.lookup name
  | .call f name => (fun v => ⟨key, f.operator, .value v⟩) <$> entries.lookup name
  | .bounds low high => do
    let lo ← entries.lookup low
    let hi ← entries.lookup high
    return ⟨key, .between, .range lo hi⟩

namespace Step

mutual

/-- The condition that a step stands for, with the values that its names stand for. -/
def condition? (entries : Entries Value) : Step → Option Condition
  | .has key p => .comparison <$> p.comparison? entries key
  | .junction j xs => .junction j <$> conditions? entries xs
  | .not x => .not <$> condition? entries x

/-- The conditions that steps stand for, if each stands for one. -/
def conditions? (entries : Entries Value) : List Step → Option (List Condition)
  | [] => some []
  | x :: r => do
    let first ← condition? entries x
    let others ← conditions? entries r
    return first :: others

end

end Step

/-! ## Filled templates -/

/-- The text of a template whose slots have their names. -/
def textOf (u : Template) : String :=
  u.render ("" ++ ·) id

/-- The parameters have the value of every slot under its name. -/
def Knows (entries : Entries Value) (u : Template) : Prop :=
  ∀ p ∈ u.slots, entries.lookup p.1 = some p.2

theorem textOf_append (t u : Template) : textOf (t ++ u) = textOf t ++ textOf u :=
  Template.render_append _ _ t u

theorem textOf_text (s : String) (u : Template) : textOf (.text s :: u) = s ++ textOf u :=
  Template.render_text _ _ s u

/-- A template between two texts. -/
def enclosed (before after : String) (t : Template) : Template :=
  .text before :: t ++ [.text after]

theorem textOf_enclosed (before after : String) (u : Template) :
    textOf (enclosed before after u) = before ++ textOf u ++ after := by
  simp [enclosed, textOf, Template.render, String.append_assoc]

theorem slots_enclosed (before after : String) (u : Template) :
    (enclosed before after u).slots = u.slots := by
  simp [enclosed, Template.slots]

theorem allot_enclosed (choose : List String → String → String) (before after : String)
    (t : Template) (taken : List String) :
    (enclosed before after t).allot choose taken = enclosed before after (t.allot choose taken) := by
  rw [enclosed, List.cons_append, Template.allot_text, Template.allot_append]
  rfl

/-- A template whose slots have their names is the text of a predicate that makes the comparison, for
whatever key. -/
structure Predicate.Fits (p : Predicate) (k : Comparison) (u : Template) : Prop where
  text : textOf u = p.text
  names : u.slots.map Prod.fst = p.names
  comparison : ∀ {entries}, Knows entries u → ∀ key,
    p.comparison? entries key = some { k with field := key }

/-- A template whose slots have their names is the text of a step that stands for the condition. -/
structure Step.Fits (x : Step) (c : Condition) (u : Template) : Prop where
  text : textOf u = x.text
  names : u.slots.map Prod.fst = x.names
  proper : x.Proper
  condition : ∀ {entries}, Knows entries u → x.condition? entries = some (c.map Comparison.keyed)

/-- A template whose slots have their names is the text of the arguments that stand for the
conditions. -/
structure Step.AllFit (xs : List Step) (cs : List Condition) (u : Template) : Prop where
  text : textOf u = ", ".intercalate (Step.arguments xs)
  names : u.slots.map Prod.fst = Step.namesAll xs
  proper : Step.ProperAll xs
  length : xs.length = cs.length
  conditions : ∀ {entries}, Knows entries u →
    Step.conditions? entries xs = some (Condition.mapAll Comparison.keyed cs)

theorem Step.Fits.argument {x : Step} {c : Condition} {u : Template} (hx : x.Fits c u) :
    Step.AllFit [x] [c] (.text "__." :: u) where
  text := by
    rw [textOf_text, hx.text]
    exact String.intercalate_singleton.symm
  names := by
    rw [Template.slots_text, hx.names]
    exact (List.append_nil _).symm
  proper := ⟨hx.proper, trivial⟩
  length := rfl
  conditions hknows := by
    rw [Knows, Template.slots_text] at hknows
    rw [Step.conditions?, hx.condition hknows]
    rfl

/-- An argument before others, of which there is one, so a comma comes between. -/
theorem Step.Fits.arguments {x : Step} {xs : List Step} {c c' : Condition} {cs : List Condition}
    {u v : Template} (hx : x.Fits c u) (hxs : Step.AllFit xs (c' :: cs) v) :
    Step.AllFit (x :: xs) (c :: c' :: cs) (.text "__." :: (u ++ .text ", " :: v)) where
  text := by
    obtain ⟨y, ys, rfl⟩ := List.exists_cons_of_length_eq_add_one hxs.length
    rw [textOf_text, textOf_append, textOf_text, hx.text, hxs.text]
    simp only [Step.arguments, String.intercalate_cons_cons, String.append_assoc]
  names := by
    rw [Template.slots_text, Template.slots_append, Template.slots_text, List.map_append, hxs.names,
      hx.names, Step.namesAll]
  proper := ⟨hx.proper, hxs.proper⟩
  length := congrArg (· + 1) hxs.length
  conditions hknows := by
    rw [Knows, Template.slots_text, Template.slots_append, Template.slots_text,
      List.forall_mem_append] at hknows
    rw [Step.conditions?, hx.condition hknows.1, hxs.conditions hknows.2]
    rfl

/-! ## Predicates -/

open Placeholder (fresh)

theorem fits_equal (field : String) (v : Value) (taken : List String) :
    (Predicate.equal (fresh taken field)).Fits ⟨field, .equal, .value v⟩
      (Template.allot fresh taken [.slot field v]) where
  text := by simp [Template.allot, textOf, Template.render, Predicate.text]
  names := rfl
  comparison hknows key := by
    have hv := hknows (fresh taken field, v) List.mem_cons_self
    simp [Predicate.comparison?, hv]

theorem fits_call (f : Function) (field : String) (v : Value) (taken : List String) :
    (Predicate.call f (fresh taken field)).Fits ⟨field, f.operator, .value v⟩
      (Template.allot fresh taken (Grammar.predicate f.name field v)) where
  text := by
    simp [Grammar.predicate, Template.allot, textOf, Template.render, Predicate.text,
      String.append_assoc]
  names := rfl
  comparison hknows key := by
    have hv := hknows (fresh taken field, v) List.mem_cons_self
    simp [Predicate.comparison?, hv]

theorem fits_bounds (field : String) (lo hi : Value) (taken : List String) :
    ∃ low high, (Predicate.bounds low high).Fits ⟨field, .between, .range lo hi⟩
      (Template.allot fresh taken [.text "gte(", Grammar.low field lo, .text ").and(lte(",
        Grammar.high field hi, .text "))"]) := by
  refine ⟨_, _, ?_, rfl, fun hknows key => ?_⟩
  · simp [Grammar.low, Grammar.high, Template.allot, textOf, Template.render, Predicate.text,
      String.append_assoc]
  · have hlo := hknows _ List.mem_cons_self
    have hhi := hknows _ (List.mem_cons_of_mem _ List.mem_cons_self)
    simp [Predicate.comparison?, hlo, hhi]

/-- A predicate makes the comparison that it is made from, with its pattern as a regular expression. -/
theorem fits_traversalPredicate {k : Comparison} {t : Template}
    (h : Grammar.traversalPredicate k = .ok t) (taken : List String) :
    ∃ p : Predicate, p.Fits (k.written .anchored) (t.allot fresh taken) := by
  obtain ⟨field, op, operand⟩ := k
  cases operand with
  | range lo hi =>
    cases op with
    | between =>
      cases h
      obtain ⟨low, high, hfits⟩ := fits_bounds field lo hi taken
      exact ⟨_, hfits⟩
    | _ => cases h
  | value v =>
    cases op with
    | between => cases h
    | equal => cases h; exact ⟨_, fits_equal field v taken⟩
    | greaterThan => cases h; exact ⟨_, fits_call .gt field v taken⟩
    | greaterEqual => cases h; exact ⟨_, fits_call .gte field v taken⟩
    | lessThan => cases h; exact ⟨_, fits_call .lt field v taken⟩
    | lessEqual => cases h; exact ⟨_, fits_call .lte field v taken⟩
    | oneOf =>
      obtain ⟨items, -, rfl⟩ := ok_of_map h
      exact ⟨_, fits_call .within field v taken⟩
    | like =>
      obtain ⟨pattern, hpattern, rfl⟩ := ok_of_map h
      rw [Comparison.written_of_pattern hpattern]
      exact ⟨_, fits_call .regex field (.str pattern) taken⟩

/-! ## Steps -/

/-- A template is the text of a step that stands for the condition, whatever names are taken. -/
def Says (c : Condition) (t : Template) : Prop :=
  ∀ taken, ∃ x : Step, x.Fits c (t.allot fresh taken)

theorem says_comparison {k : Comparison} {t : Template}
    (h : Grammar.gremlinScript.comparison k = .ok t) : Says (.comparison k) t := by
  intro taken
  obtain ⟨u, hu, rfl⟩ := ok_of_map h
  obtain ⟨p, hp⟩ := fits_traversalPredicate hu taken
  have hstep : Grammar.hasStep k u = enclosed ("has(" ++ Text.singleQuoted k.field ++ ", ") ")" u := rfl
  rw [hstep, allot_enclosed]
  refine ⟨.has (Text.escapeQuotes k.field) p, ?_, ?_, ⟨?_, ?_⟩, fun hknows => ?_⟩
  · rw [textOf_enclosed, hp.text, ← String.toList_inj]
    simp [Step.text, Text.singleQuoted]
  · rw [slots_enclosed, hp.names, Step.names]
  · rw [Text.escapeQuotes, String.toList_ofList]
    exact (Text.isBody_coverQuotes _).1
  · rw [← hp.names]
    exact fun _ => Template.isIdentifier_of_mem_slotNames
  · rw [Knows, slots_enclosed] at hknows
    rw [Step.condition?, hp.comparison hknows]
    rfl

theorem says_not {c : Condition} {t : Template} (h : Says c t) :
    Says (.not c) (enclosed "not(__." ")" t) := by
  intro taken
  obtain ⟨x, hx⟩ := h taken
  rw [allot_enclosed]
  refine ⟨.not x, ?_, ?_, hx.proper, fun hknows => ?_⟩
  · rw [textOf_enclosed, hx.text, Step.text]
  · rw [slots_enclosed, hx.names, Step.names]
  · rw [Knows, slots_enclosed] at hknows
    rw [Step.condition?, hx.condition hknows]
    rfl

/-- The templates of a junction's children, as arguments. -/
def arguments (ts : List Template) : Template :=
  Template.separated ", " (ts.map (.text "__." :: ·))

/-- Names go on from one argument to the next. -/
theorem fit_arguments {cs : List Condition} {ts : List Template} (h : List.Forall₂ Says cs ts) :
    ∀ taken, ∃ xs : List Step, Step.AllFit xs cs ((arguments ts).allot fresh taken) := by
  induction h with
  | nil => exact fun _ => ⟨[], rfl, rfl, trivial, rfl, fun _ => rfl⟩
  | @cons c t cs ts hc hcs ih =>
    intro taken
    obtain ⟨x, hx⟩ := hc taken
    cases hcs with
    | nil =>
      rw [arguments, List.map_singleton, Template.separated_singleton]
      exact ⟨[x], hx.argument⟩
    | @cons c' t' cs ts hc' hcs =>
      obtain ⟨xs, hxs⟩ := ih (taken ++ (t.allot fresh taken).slots.map Prod.fst)
      refine ⟨x :: xs, ?_⟩
      rw [arguments, List.map_cons, List.map_cons, Template.separated_cons_cons, List.cons_append,
        Template.allot_text, Template.allot_append]
      exact hx.arguments hxs

theorem says_junction {nested : Bool} {j : Junction} {cs : List Condition} {ts : List Template}
    (h : List.Forall₂ Says cs ts) :
    Says (.junction j cs) (Grammar.gremlinScript.junction j nested ts) := by
  intro taken
  obtain ⟨xs, hxs⟩ := fit_arguments h taken
  have hjunction : Grammar.gremlinScript.junction j nested ts =
      enclosed (Grammar.stepName j ++ "(") ")" (arguments ts) := rfl
  rw [hjunction, allot_enclosed]
  refine ⟨.junction j xs, ?_, ?_, hxs.proper, fun hknows => ?_⟩
  · rw [textOf_enclosed, hxs.text, Step.text]
    cases j <;> rfl
  · rw [slots_enclosed, hxs.names, Step.names]
  · rw [Knows, slots_enclosed] at hknows
    rw [Step.condition?, hxs.conditions hknows]
    rfl

theorem says_template {nested : Bool} {c : Condition} {t : Template}
    (h : Grammar.gremlinScript.template nested c = .ok t) : Says c t := by
  have hkeeps : Grammar.gremlinScript.Keeps (fun _ => True) fun _ => Says :=
    ⟨fun _ => says_comparison, says_junction, says_not⟩
  exact hkeeps.template nested c t (fun _ _ => trivial) h

end Traversal

open Traversal in
/-- A script is read back as one step, from which the condition is recovered with the parameters. The
names in it are those of the parameters, in their order, and none comes twice. -/
theorem Condition.script_toFilter {c : Condition} {projection : List String} {f : Filter}
    (h : c.toFilter .gremlinScript projection = .ok f) :
    ∃ script entries x, f = .text script (.named entries) ∧ Step.read script = some x ∧
      x.condition? entries = some (c.map Comparison.keyed) ∧ x.names = Entries.keys entries ∧
      (Entries.keys entries).Nodup := by
  obtain ⟨t, ht, rfl⟩ := ok_of_map h
  obtain ⟨x, hx⟩ := says_template ht []
  have hnodup := Template.nodup_slotNames t []
  refine ⟨_, _, x, Marking.fill_named "" t _, ?_,
    hx.condition fun p hp => Entries.lookup_of_mem hnodup hp, hx.names.symm, hnodup⟩
  exact (congrArg Step.read hx.text).trans (Step.read_text hx.proper)

/-- Junctions with few children, and fields that look like functions or end in a backslash. -/
def Condition.entwined : Condition :=
  .junction .or
    [.junction .and [], .junction .and [.compare "gt" .equal (.int 1)],
      .not (.between "it's\\" (.int 1) (.int 9)), .compare "gt" .like .null,
      .compare "a', b" .oneOf (.list [])]

theorem Condition.script_entwined : ∃ script entries x,
    entwined.toFilter .gremlinScript [] = .ok (.text script (.named entries)) ∧
      Traversal.Step.read script = some x ∧
        x.condition? entries = some (.junction .or
          [.junction .and [], .junction .and [.compare "gt" .equal (.int 1)],
            .not (.between "it\\'s\\\\" (.int 1) (.int 9)),
            .compare "gt" .like (.str "[^\\s\\S]"), .compare "a\\', b" .oneOf (.list [])]) ∧
          x.names = Entries.keys entries ∧ (Entries.keys entries).Nodup := by
  have hfilter : ∃ f, entwined.toFilter .gremlinScript [] = .ok f := ⟨_, rfl⟩
  obtain ⟨f, hf⟩ := hfilter
  obtain ⟨script, entries, x, rfl, hread, hcondition, hnames, hnodup⟩ := script_toFilter hf
  exact ⟨script, entries, x, hf, hread, hcondition, hnames, hnodup⟩

end QueryMethods
