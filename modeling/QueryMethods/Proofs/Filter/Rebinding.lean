/-
One relational text under two bindings. A condition becomes the same query whether its values go by name
or by position, or is refused with the same error: put a question mark in the place of each name, and as
many of them as a list has items where membership is tested, and the named query is the positional one.

Names are told from the rest of the text by their colons, and no two values have one name, so the order
of the text is the order of the map.
-/
import QueryMethods.Proofs.Filter.References

namespace QueryMethods

/-! ## Lists that are spread -/

/-- For each value that a comparison binds by name, whether it is a list in which to look. -/
def Comparison.listed (k : Comparison) : List Bool :=
  match k.operand with
  | .range _ _ => [false, false]
  | .value _ => [k.op == .oneOf]

/-- For each value that a condition binds by name, from left to right, whether it is a list in which to
look. -/
def Condition.listed (c : Condition) : List Bool :=
  c.comparisons.flatMap Comparison.listed

/-- Named values with those that stand for each of them by position: the items of a list in which to
look, and any other value itself. -/
def Entries.spread (listed : List Bool) (m : Entries Value) : Entries (List Value) :=
  m.zipWith (fun p isListed => (p.1, if isListed then p.2.items?.getD [] else [p.2])) listed

theorem Entries.keys_spread (listed : List Bool) (m : Entries Value) :
    (spread listed m).keys = m.keys.take listed.length := by
  induction m generalizing listed with
  | nil => simp [spread, keys]
  | cons p m ih =>
    cases listed with
    | nil => rfl
    | cons isListed listed => exact congrArg (p.1 :: ·) (ih listed)

/-! ## Replacing references -/

/-- A text with its references, each a sigil and the longest name after it, replaced by what stands for
their names. -/
def replaceReferences (sigil : Char) (standIn : String → String) : List Char → List Char
  | [] => []
  | c :: r =>
    if c = sigil then
      (standIn (String.ofList (r.takeWhile Params.isNameChar))).toList ++
        replaceReferences sigil standIn (r.dropWhile Params.isNameChar)
    else c :: replaceReferences sigil standIn r
termination_by s => s.length
decreasing_by
  · have := (List.dropWhile_sublist (l := r) Params.isNameChar).length_le
    simp only [List.length_cons]
    omega
  · simp

section

variable {sigil : Char} {standIn : String → String}

theorem replaceReferences_text {s : List Char} (h : sigil ∉ s) (r : List Char) :
    replaceReferences sigil standIn (s ++ r) = s ++ replaceReferences sigil standIn r := by
  induction s with
  | nil => rfl
  | cons c s ih =>
    obtain ⟨hc, hs⟩ := not_or.1 (mt List.mem_cons.2 h)
    rw [List.cons_append, replaceReferences, if_neg (Ne.symm hc), ih hs, List.cons_append]

theorem replaceReferences_name {name : String} {r : List Char}
    (hname : ∀ c ∈ name.toList, Params.isNameChar c) (htake : r.takeWhile Params.isNameChar = [])
    (hdrop : r.dropWhile Params.isNameChar = r) :
    replaceReferences sigil standIn (sigil :: (name.toList ++ r)) =
      (standIn name).toList ++ replaceReferences sigil standIn r := by
  rw [replaceReferences, if_pos rfl, List.takeWhile_append_of_pos hname,
    List.dropWhile_append_of_pos hname, htake, hdrop, List.append_nil, String.ofList_toList]

end

/-- Question marks with commas between them, one for each value. -/
def questionMarks (vs : List Value) : String :=
  ", ".intercalate (vs.map fun _ => "?")

/-- The question marks for the values that stand for a name; a name without values keeps its colon. -/
def Entries.marks (m : Entries (List Value)) (name : String) : String :=
  match m.lookup name with
  | some vs => questionMarks vs
  | none => ":" ++ name

theorem Entries.marks_of_mem {m : Entries (List Value)} (hm : m.keys.Nodup) {name : String}
    {vs : List Value} (h : (name, vs) ∈ m) : m.marks name = questionMarks vs := by
  rw [marks, lookup_of_mem hm h]

/-! ## Templates -/

namespace Template

/-- The second template is the first with other names, in which each slot of a list in which to look has
given way to slots for its items. -/
inductive Spread : List Bool → Template → Template → Prop
  | nil : Spread [] [] []
  | text {listed : List Bool} {t u : Template} (s : String) (h : Spread listed t u) :
      Spread listed (.text s :: t) (.text s :: u)
  | value {listed : List Bool} {t u : Template} (name hint : String) (v : Value)
      (h : Spread listed t u) : Spread (false :: listed) (.slot name v :: t) (.slot hint v :: u)
  | list {listed : List Bool} {t u : Template} (name hint : String) (items : List Value)
      (h : Spread listed t u) :
      Spread (true :: listed) (.slot name (.list items) :: t) (Grammar.itemSlots hint items ++ u)

variable {listed listed' : List Bool} {t u t' u' : Template}

theorem Spread.append (h : Spread listed t u) (h' : Spread listed' t' u') :
    Spread (listed ++ listed') (t ++ t') (u ++ u') := by
  induction h with
  | nil => exact h'
  | text s _ ih => exact .text s ih
  | value name hint v _ ih => exact .value name hint v ih
  | list name hint items _ ih =>
    rw [List.append_assoc]
    exact .list name hint items ih

theorem Spread.enclosed (before after : String) (h : Spread listed t u) :
    Spread listed (.text before :: t ++ [.text after]) (.text before :: u ++ [.text after]) := by
  have hafter := (Spread.text before h).append (.text after .nil)
  rwa [List.append_nil] at hafter

/-- The templates of several conditions. -/
inductive SpreadAll : List Bool → List Template → List Template → Prop
  | nil : SpreadAll [] [] []
  | cons {listed listed' : List Bool} {t u : Template} {ts us : List Template}
      (h : Spread listed t u) (hs : SpreadAll listed' ts us) :
      SpreadAll (listed ++ listed') (t :: ts) (u :: us)

theorem SpreadAll.separated {ts us : List Template} (separator : String) (h : SpreadAll listed ts us) :
    Spread listed (separated separator ts) (separated separator us) := by
  induction h with
  | nil => exact .nil
  | cons h hs ih =>
    cases hs with
    | nil =>
      rw [separated_singleton, separated_singleton, List.append_nil]
      exact h
    | cons h' hs =>
      rw [separated_cons_cons, separated_cons_cons]
      exact h.append (.text separator ih)

/-- The names that are spread are those of the first template alone. -/
theorem Spread.allot (choose : List String → String → String) (h : Spread listed t u) :
    ∀ taken, Spread listed (t.allot choose taken) u := by
  induction h with
  | nil => exact fun _ => .nil
  | text s _ ih => exact fun taken => .text s (ih taken)
  | value name hint v _ ih => exact fun taken => .value (choose taken name) hint v (ih _)
  | list name hint items _ ih => exact fun taken => .list (choose taken name) hint items (ih _)

theorem Spread.length_eq (h : Spread listed t u) : t.slots.length = listed.length := by
  induction h with
  | nil => rfl
  | text s _ ih => exact ih
  | value name hint v _ ih => exact congrArg (· + 1) ih
  | list name hint items _ ih => exact congrArg (· + 1) ih

/-- By position a template hands over what stands for each of its named values. -/
theorem Spread.values_eq (h : Spread listed t u) :
    u.values = (Entries.spread listed t.slots).flatMap Prod.snd := by
  induction h with
  | nil => rfl
  | text s _ ih => exact ih
  | value name hint v _ ih => exact congrArg (v :: ·) ih
  | list name hint items _ ih =>
    have hitems : (Grammar.itemSlots hint items).values = items := values_slots ", " hint items
    rw [values_append, hitems, ih]
    rfl

theorem render_itemSlots (column : String → String) (hint : String) (items : List Value) :
    (Grammar.itemSlots hint items).render (fun _ => "?") column = questionMarks items := by
  have hslot (v : Value) : render (fun _ => "?") column [.slot hint v] = "?" := by
    rw [render_slot]
    rfl
  rw [Grammar.itemSlots, render_separated, List.map_map, questionMarks]
  exact congrArg _ (List.map_congr_left fun v _ => hslot v)

theorem replaceReferences_slot {standIn column : String → String} {name : String} (v : Value)
    (hname : ∀ c ∈ name.toList, Params.isNameChar c) (hopens : Opens t) :
    replaceReferences ':' standIn (render (":" ++ ·) column (.slot name v :: t)).toList =
      (standIn name).toList ++ replaceReferences ':' standIn (render (":" ++ ·) column t).toList := by
  obtain ⟨htake, hdrop⟩ := takeWhile_render (":" ++ ·) column hopens
  have hsigil : (":" ++ name).toList = ':' :: name.toList := String.toList_append ..
  rw [render_slot, String.toList_append, hsigil]
  exact replaceReferences_name hname htake hdrop

/-- The text by position is the text by name with the question marks for each name in its place. -/
theorem Spread.render_eq {refers : Char → Bool} {standIn : String → String}
    (column : String → String) (h : Spread listed t u) (hclean : t.Clean refers) (hcolon : refers ':' = true)
    (hnames : ∀ p ∈ t.slots, ∀ c ∈ p.1.toList, Params.isNameChar c)
    (hstandIn : ∀ p ∈ Entries.spread listed t.slots, standIn p.1 = questionMarks p.2) :
    replaceReferences ':' standIn (t.render (":" ++ ·) column).toList =
      (u.render (fun _ => "?") column).toList := by
  induction h with
  | nil => simp [render, replaceReferences]
  | text s _ ih =>
    obtain ⟨hsilent, hclean⟩ := hclean
    have hs : ':' ∉ s.toList := fun hmem => by
      rw [hsilent ':' hmem] at hcolon
      cases hcolon
    rw [render_text, render_text, String.toList_append, String.toList_append,
      replaceReferences_text hs, ih hclean hnames hstandIn]
  | value name hint v _ ih =>
    obtain ⟨hopens, hclean⟩ := hclean
    obtain ⟨hname, hnames⟩ := List.forall_mem_cons.1 hnames
    obtain ⟨hmarks, hstandIn⟩ := List.forall_mem_cons.1 hstandIn
    have hmark : standIn name = "?" := hmarks
    rw [replaceReferences_slot v hname hopens, hmark, ih hclean hnames hstandIn, render_slot,
      String.toList_append]
  | list name hint items _ ih =>
    obtain ⟨hopens, hclean⟩ := hclean
    obtain ⟨hname, hnames⟩ := List.forall_mem_cons.1 hnames
    obtain ⟨hmarks, hstandIn⟩ := List.forall_mem_cons.1 hstandIn
    have hmarks : standIn name = questionMarks items := hmarks
    rw [replaceReferences_slot (.list items) hname hopens, hmarks, ih hclean hnames hstandIn,
      render_append, render_itemSlots, String.toList_append]

end Template

/-! ## The two grammars -/

namespace Grammar

open Template

/-- A comparison of the common forms is written alike. -/
theorem spread_plain {g : Grammar} (hcolumn : ∀ field, g.column field = [.text field])
    {k : Comparison} (hk : ¬k.IsList) {t : Template} (h : g.PlainForm k t) :
    Spread k.listed t t := by
  cases h with
  | @signed field op v _ hlist =>
    have hop : (op == Operator.oneOf) = false := beq_false_of_ne hlist
    rw [hcolumn, Comparison.listed, hop]
    exact .text _ (.text _ (.value _ _ _ .nil))
  | between field lo hi =>
    rw [hcolumn]
    exact .text _ (.text _ (.value _ _ _ (.text _ (.value _ _ _ .nil))))
  | whole field items => exact absurd ⟨rfl, _, rfl⟩ hk

theorem paired_comparison (k : Comparison) :
    Paired Eq (Spread k.listed) (relationalNamed.comparison k) (relationalPositional.comparison k) := by
  by_cases hk : k.IsList
  · obtain ⟨field, op, operand⟩ := k
    obtain ⟨rfl, v, rfl⟩ := hk
    show Paired Eq (Spread [true]) (v.requireItems field >>= fun _ => _)
      (v.requireItems field >>= fun items => _)
    cases hitems : v.requireItems field with
    | error e => exact .error rfl
    | ok items =>
      obtain ⟨rfl, -⟩ := Value.ok_of_requireItems hitems
      have hslots : Spread [true] [.slot field (.list items), .text ")"]
          (itemSlots field items ++ [.text ")"]) := .list field field items (.text ")" .nil)
      exact .ok (.text _ hslots)
  · have hnamed : relationalNamed.comparison k = relationalNamed.plain k := by
      rw [comparison, hasRulesFor_relationalNamed hk]
      rfl
    have hpositional : relationalPositional.comparison k = relationalNamed.plain k := by
      rw [comparison, hasRulesFor_relationalPositional hk]
      rfl
    rw [hnamed, hpositional]
    cases hplain : relationalNamed.plain k with
    | error e => exact .error rfl
    | ok t => exact .ok (spread_plain (fun _ => rfl) hk (plainForm_of_plain hplain))

theorem spread_infixJunction {listed : List Bool} {ts us : List Template} (j : Junction) (nested : Bool)
    (h : SpreadAll listed ts us) : Spread listed (infixJunction j nested ts) (infixJunction j nested us) := by
  have hparts := h.separated (" " ++ j.name ++ " ")
  cases nested with
  | false => exact hparts
  | true => exact hparts.enclosed "(" ")"

mutual

/-- Both grammars refuse a condition for the same reason, or one template is the other with the lists
spread. -/
theorem paired_template : ∀ (nested : Bool) (c : Condition),
    Paired Eq (Spread c.listed) (relationalNamed.template nested c)
      (relationalPositional.template nested c)
  | nested, .comparison k => by
    rw [template, template, Condition.listed, Condition.comparisons, List.flatMap_singleton]
    exact paired_comparison k
  | nested, .junction j cs => by
    rw [template, template]
    exact (paired_templates cs).map fun ts us h => spread_infixJunction j nested h
  | nested, .not c => by
    rw [template, template]
    exact (paired_template false c).map fun t u h => h.enclosed "NOT (" ")"

theorem paired_templates : ∀ cs : List Condition,
    Paired Eq (SpreadAll ((Condition.comparisonsAll cs).flatMap Comparison.listed))
      (relationalNamed.templates cs) (relationalPositional.templates cs)
  | [] => by
    rw [templates, templates]
    exact .ok .nil
  | c :: cs => by
    rw [templates, templates, Condition.comparisonsAll, List.flatMap_append]
    refine (paired_template true c).bind fun t u h => ?_
    exact (paired_templates cs).map fun ts us hs => .cons h hs

end

end Grammar

/-! ## Filters -/

/-- A filter with named values, and the filter that it is by position: the texts are the same but for
the question marks in the place of each name, and the values are the named ones in the order of the map,
with the items of a list in which to look in its place. -/
def Condition.Rebound (c : Condition) (named positional : Filter) : Prop :=
  ∃ query entries, named = .text query (.named entries) ∧
    Params.BoundByName ':' query entries (c.values .relationalNamed) ∧
    entries.length = c.listed.length ∧
    positional =
      .text (String.ofList (replaceReferences ':' (entries.spread c.listed).marks query.toList))
        (.positional ((entries.spread c.listed).flatMap Prod.snd))

namespace Condition

variable {c : Condition}

theorem rebound_fill {t u : Template} (hspread : Template.Spread c.listed t u)
    (hclean : t.Clean Dialect.relationalNamed.marking.refers)
    (hvalues : t.values = c.values .relationalNamed) (projection : List Template) :
    c.Rebound ((Marking.named ":").fill t projection) (Marking.positional.fill u projection) := by
  have hallot := hspread.allot Placeholder.fresh []
  rw [Marking.fill_named]
  obtain ⟨query, entries, hfill, hbound⟩ :=
    Marking.bound_fill (rfl : ":".toList = [':']) (by decide) hclean projection
  cases (Marking.fill_named ":" t projection).symm.trans hfill
  rw [hvalues] at hbound
  refine ⟨_, _, rfl, hbound, hallot.length_eq, ?_⟩
  -- A name has the marks of its own value, as no other value has the name.
  have hnodup : (Entries.spread c.listed (t.allot Placeholder.fresh []).slots).keys.Nodup := by
    rw [Entries.keys_spread]
    exact hbound.nodup.sublist (List.take_sublist _ _)
  have hnames : ∀ p ∈ (t.allot Placeholder.fresh []).slots, ∀ x ∈ p.1.toList, Params.isNameChar x :=
    fun p h => Template.isNameChar_of_mem_slots h
  have htext := hallot.render_eq id ((Template.clean_allot t []).2 hclean) rfl hnames
    fun p h => Entries.marks_of_mem hnodup h
  rw [Marking.fill, htext, String.ofList_toList]
  exact congrArg _ (congrArg _ hallot.values_eq)

/-- A relational store that binds by name and one that binds by position refuse a condition with the same
error, or they have the same filter for it but for the binding, if no field has a colon. -/
theorem rebound_toFilter (hfields : ∀ k ∈ c.comparisons, ':' ∉ k.field.toList)
    (projection : List String) :
    Paired Eq c.Rebound (c.toFilter .relationalNamed projection)
      (c.toFilter .relationalPositional projection) := by
  have htemplates := Grammar.paired_template false c
  refine htemplates.ok_left.map fun t u ⟨ht, hspread⟩ => ?_
  have hclean := Grammar.clean_named (d := .relationalNamed) rfl hfields ht
  have hvalues := Grammar.values_template (d := .relationalNamed) ht
  exact rebound_fill hspread hclean hvalues _

/-- Lists in which to look and one that is compared as it is, over fields with names near to each other. -/
def mixedLists : Condition :=
  .junction .or [.compare "tag" .equal (.list [.int 1, .int 2]),
    .not (.compare "tag" .oneOf (.list [.str "x:y", .null, .str "?"])),
    .junction .and [.between "tag" (.int 3) (.int 4), .compare "tag_lo" .like (.str "a%")]]

theorem rebound_mixedLists :
    (∀ k ∈ mixedLists.comparisons, ':' ∉ k.field.toList) ∧
      ∃ named positional, mixedLists.toFilter .relationalNamed [] = .ok named ∧
        mixedLists.toFilter .relationalPositional [] = .ok positional ∧
        named.queryText = "tag = :tag OR NOT (tag IN (:tag_1)) OR " ++
          "(tag BETWEEN :tag_lo AND :tag_hi AND tag_lo LIKE :tag_lo_1)" ∧
        positional.queryText = "tag = ? OR NOT (tag IN (?, ?, ?)) OR " ++
          "(tag BETWEEN ? AND ? AND tag_lo LIKE ?)" ∧
        mixedLists.Rebound named positional := by
  have hfields : ∀ k ∈ mixedLists.comparisons, ':' ∉ k.field.toList := by
    simp [mixedLists, comparisons, comparisonsAll, compare, between]
  have h : Paired Eq mixedLists.Rebound (.ok _) (.ok _) := rebound_toFilter hfields []
  cases h with
  | ok h => exact ⟨hfields, _, _, rfl, rfl, by decide +kernel, by decide +kernel, h⟩

end Condition

end QueryMethods
