/-
Names in the dialect without parentheses. It has no disjunction and no negation, and a conjunction only at
the top, so it takes what a name asks for just if the name has one group, no segment of it negates and the
arguments are such as its comparisons take. The text is then that of the segments, one after the other.
-/
import QueryMethods.Proofs.Filter.Concord
import QueryMethods.Proofs.Name.Meaning

namespace QueryMethods

/-! ## Joined conditions -/

namespace Condition

variable {j : Junction} {c : Condition} {cs : List Condition}

theorem operands_of_not_junction (h : ¬c.IsJunction j) : c.operands j = [c] := by
  cases c with
  | junction j' cs =>
    refine if_neg ?_
    rintro rfl
    exact h ⟨cs, rfl⟩
  | _ => rfl

theorem flatMap_operands (h : ∀ c ∈ cs, ¬c.IsJunction j) : cs.flatMap (operands j) = cs := by
  rw [List.flatMap_congr fun c hc => operands_of_not_junction (h c hc)]
  exact List.flatMap_singleton' cs

/-- A single condition stands for itself. -/
theorem join_singleton (h : ¬c.IsJunction j) : join j [c] = c := by
  rw [join, flatMap_operands (List.forall_mem_singleton.2 h)]

theorem join_eq_junction (h : ∀ c ∈ cs, ¬c.IsJunction j) (hlength : cs.length ≠ 1) :
    join j cs = .junction j cs := by
  rw [join, flatMap_operands h]
  split
  · exact absurd rfl hlength
  · rfl

/-- Conditions that are no junctions of another kind do not become one by being joined. -/
theorem not_isJunction_join {j' : Junction} (hj : j ≠ j') (h : ∀ c ∈ cs, ∀ i, ¬c.IsJunction i) :
    ¬(join j cs).IsJunction j' := by
  by_cases hlength : cs.length = 1
  · obtain ⟨c, rfl⟩ := List.length_eq_one_iff.1 hlength
    obtain hc := h c List.mem_cons_self
    rw [join_singleton (hc j)]
    exact hc j'
  · rw [join_eq_junction (fun c hc => h c hc j) hlength]
    rintro ⟨ds, hds⟩
    exact hj (junction.inj hds).1

end Condition

/-! ## The grammar without parentheses -/

namespace Grammar

open Condition

variable {k : Comparison} {t : Template} {c : Condition} {cs : List Condition}

theorem exists_driverPositional_iff : (∃ t, driverPositional.comparison k = .ok t) ↔ k.Fits :=
  exists_comparison_iff_of_ranges (fun _ => rfl) hasRulesFor_driverPositional fun _ _ _ => ⟨_, rfl⟩

/-- How a comparison of a field is asked for: with a question mark for each value. -/
def asked (field : String) : Operator → String
  | .between => field ++ " >= ? AND " ++ field ++ " <= ?"
  | op => field ++ " " ++ op.symbol ++ " ?"

theorem render_driverPositional (h : driverPositional.comparison k = .ok t) :
    t.render (fun _ => "?") id = asked k.field k.op := by
  have hspace (text : String) : text ++ " " ++ "?" = text ++ " ?" := String.append_assoc
  cases rangeForms_driverPositional h with
  | plain hk h =>
    cases h with
    | @signed field op v hbetween hlist =>
      have hasked : asked field op = field ++ " " ++ op.symbol ++ " ?" := by
        cases op with
        | between => exact absurd rfl hbetween
        | _ => rfl
      rw [hasked, ← hspace, String.append_assoc, String.append_assoc, String.append_assoc]
      simp [Template.render, driverPositional, String.append_assoc]
    | between field lo hi => exact absurd ⟨rfl, lo, hi, rfl⟩ hk
    | whole field items =>
      simp [Template.render, driverPositional, asked, Operator.symbol, String.append_assoc]
  | range field lo hi =>
    have hbounds (rest : String) : " >= " ++ ("?" ++ (" AND " ++ rest)) = " >= ? AND " ++ rest := by
      rw [← String.append_assoc, ← String.append_assoc]
      rfl
    simp only [asked, String.append_assoc, ← hbounds]
    simp [Template.render, low, high, String.append_assoc]

theorem template_of_not_junction (g : Grammar) (h : ∀ j, ¬c.IsJunction j) (nested : Bool) :
    g.template nested c = g.template false c := by
  cases c with
  | junction j cs => exact absurd ⟨cs, rfl⟩ (h j)
  | _ => rfl

/-- A conjunction at the top is its parts with `AND` between them. -/
theorem template_join_and (h : ∀ c ∈ cs, ∀ j, ¬c.IsJunction j) :
    driverPositional.template false (join .and cs) =
      Template.separated " AND " <$> driverPositional.templates cs := by
  by_cases hlength : cs.length = 1
  · obtain ⟨c, rfl⟩ := List.length_eq_one_iff.1 hlength
    have hc := h c List.mem_cons_self
    rw [join_singleton (hc .and), templates, templates, driverPositional.template_of_not_junction hc true]
    cases driverPositional.template false c with
    | error e => rfl
    | ok t => exact congrArg Except.ok (Template.separated_singleton " AND " t).symm
  · rw [join_eq_junction (fun c hc => h c hc .and) hlength]
    rfl

theorem template_join_or (h : ∀ c ∈ cs, ¬c.IsJunction .or) (hlength : cs.length ≠ 1) :
    driverPositional.template false (join .or cs) =
      .error (.unsupported (.junction .or) .driverPositional) := by
  rw [join_eq_junction h hlength]
  rfl

end Grammar

/-! ## Segments -/

namespace Name

open Grammar

namespace Share

/-- The arguments are such as a comparison with them takes: a list for membership, and a text or null for
a pattern. -/
structure Suits (share : Share) : Prop where
  list : share.segment.keyword = .oneOf → ∃ items, share.args = [.list items]
  pattern : share.segment.keyword = .like → share.args = [.null] ∨ ∃ s, share.args = [.str s]

variable {share : Share} {c : Condition} {k : Comparison} {t : Template}

theorem not_isJunction (hfull : share.IsFull) (h : share.condition = .ok c) (j : Junction) :
    ¬c.IsJunction j := by
  obtain ⟨e, he, -⟩ | ⟨-, k, -, hc⟩ := condition_spec hfull
  · cases h.symm.trans he
  cases h.symm.trans hc
  rintro ⟨cs, hcs⟩
  split at hcs <;> cases hcs

theorem fits_iff (hk : share.comparison? = some k) (hfull : share.IsFull)
    (hnegates : share.segment.keyword.negates = false) : k.Fits ↔ share.Suits := by
  obtain ⟨⟨field, keyword⟩, args⟩ := share
  cases keyword with
  | not | notOneOf | notLike => cases hnegates
  | between =>
    obtain ⟨low, high, rfl⟩ := List.length_eq_two.1 hfull
    cases hk
    exact iff_of_true trivial ⟨nofun, nofun⟩
  | matching kind =>
    obtain ⟨v, rfl⟩ := List.length_eq_one_iff.1 hfull
    cases v with
    | str s =>
      cases hk
      exact iff_of_true (.inr ⟨_, rfl⟩) ⟨nofun, nofun⟩
    | _ => cases hk
  | oneOf =>
    obtain ⟨v, rfl⟩ := List.length_eq_one_iff.1 hfull
    cases hk
    constructor
    · rintro ⟨items, rfl⟩
      exact ⟨fun _ => ⟨items, rfl⟩, nofun⟩
    · intro h
      obtain ⟨items, hitems⟩ := h.list rfl
      exact ⟨items, List.head_eq_of_cons_eq hitems⟩
  | like =>
    obtain ⟨v, rfl⟩ := List.length_eq_one_iff.1 hfull
    cases hk
    constructor
    · rintro (rfl | ⟨s, rfl⟩)
      · exact ⟨nofun, fun _ => .inl rfl⟩
      · exact ⟨nofun, fun _ => .inr ⟨s, rfl⟩⟩
    · intro h
      obtain hnull | ⟨s, hs⟩ := h.pattern rfl
      · exact .inl (List.head_eq_of_cons_eq hnull)
      · exact .inr ⟨s, List.head_eq_of_cons_eq hs⟩
  | _ =>
    obtain ⟨v, rfl⟩ := List.length_eq_one_iff.1 hfull
    cases hk
    exact iff_of_true trivial ⟨nofun, nofun⟩

/-- A segment is taken if it does not negate and its arguments suit it. -/
theorem exists_template_iff (hfull : share.IsFull) (h : share.condition = .ok c) :
    (∃ t, driverPositional.template true c = .ok t) ↔
      share.segment.keyword.negates = false ∧ share.Suits := by
  obtain ⟨e, he, -⟩ | ⟨-, k, hk, hc⟩ := condition_spec hfull
  · cases h.symm.trans he
  cases h.symm.trans hc
  cases hnegates : share.segment.keyword.negates with
  | true =>
    refine iff_of_false ?_ nofun
    rintro ⟨t, ht⟩
    cases ht
  | false =>
    have hsuits := exists_driverPositional_iff.trans (fits_iff hk hfull hnegates)
    exact hsuits.trans (and_iff_right rfl).symm

/-- The text of a segment asks for its comparison. -/
theorem render_template (hfull : share.IsFull) (h : share.condition = .ok c)
    (ht : driverPositional.template true c = .ok t) :
    t.render (fun _ => "?") id = asked share.segment.field share.segment.keyword.operator := by
  obtain ⟨e, he, -⟩ | ⟨-, k, hk, hc⟩ := condition_spec hfull
  · cases h.symm.trans he
  cases h.symm.trans hc
  cases hnegates : share.segment.keyword.negates with
  | true =>
    rw [hnegates] at ht
    cases ht
  | false =>
    rw [hnegates] at ht
    obtain ⟨operand, -, rfl⟩ := Option.map_eq_some_iff.1 hk
    exact render_driverPositional ht

end Share

/-! ## Groups -/

section

variable {group : List Share} {cs : List Condition}

/-- The templates of a group's conditions: there are some if each segment is taken, and they ask for what
the segments ask for. -/
theorem templates_of_shares
    (h : List.Forall₂ (fun share c => share.IsFull ∧ share.condition = .ok c) group cs) :
    ((∃ ts, driverPositional.templates cs = .ok ts) ↔
        ∀ share ∈ group, share.segment.keyword.negates = false ∧ share.Suits) ∧
      ∀ ts, driverPositional.templates cs = .ok ts →
        ts.map (Template.render (fun _ => "?") id) =
          group.map fun share => asked share.segment.field share.segment.keyword.operator := by
  induction h with
  | nil => exact ⟨iff_of_true ⟨[], rfl⟩ nofun, fun ts hts => by cases hts; rfl⟩
  | @cons share c group cs hshare _ ih =>
    obtain ⟨hfull, hc⟩ := hshare
    obtain ⟨ihaccepts, ihtexts⟩ := ih
    rw [List.forall_mem_cons, ← ihaccepts, ← Share.exists_template_iff hfull hc]
    constructor
    · constructor
      · rintro ⟨ts, hts⟩
        obtain ⟨t, ht, hts⟩ := ok_of_bind hts
        obtain ⟨us, hus, -⟩ := ok_of_bind hts
        exact ⟨⟨t, ht⟩, us, hus⟩
      · rintro ⟨⟨t, ht⟩, us, hus⟩
        exact ⟨t :: us, by rw [templates, ht, hus]; rfl⟩
    · intro ts hts
      obtain ⟨t, ht, hts⟩ := ok_of_bind hts
      obtain ⟨us, hus, hts⟩ := ok_of_bind hts
      cases hts
      rw [List.map_cons, List.map_cons, ihtexts us hus, Share.render_template hfull hc ht]

/-- The conjunction of a group joins the conditions of its shares, none of which is a junction. -/
theorem conjunction_spec {d : Condition} (hfull : ∀ share ∈ group, share.IsFull)
    (h : conjunction group = .ok d) : ∃ cs, d = .join .and cs ∧ (∀ c ∈ cs, ∀ j, ¬c.IsJunction j) ∧
      List.Forall₂ (fun share c => share.IsFull ∧ share.condition = .ok c) group cs := by
  obtain ⟨cs, hcs, rfl⟩ := ok_of_map h
  have hshares := (List.forall₂_and_left group cs).2 ⟨hfull, forall₂_of_mapM hcs⟩
  refine ⟨cs, rfl, fun c hc => ?_, hshares⟩
  obtain ⟨share, -, hshare, hcondition⟩ := exists_of_mem_forall₂ hshares hc
  exact Share.not_isJunction hshare hcondition

/-- Groups are taken if there is one and each segment of it is taken. -/
theorem template_of_groups {groups : List (List Share)} {ds : List Condition}
    (hfull : ∀ share ∈ groups.flatten, share.IsFull) (h : groups.mapM conjunction = .ok ds) :
    ((∃ t, driverPositional.template false (.join .or ds) = .ok t) ↔ groups.length = 1 ∧
        ∀ share ∈ groups.flatten, share.segment.keyword.negates = false ∧ share.Suits) ∧
      ∀ t, driverPositional.template false (.join .or ds) = .ok t →
        t.render (fun _ => "?") id = " AND ".intercalate (groups.flatten.map fun share =>
          asked share.segment.field share.segment.keyword.operator) := by
  have hgroups := forall₂_conjunctions hfull h
  by_cases hlength : groups.length = 1
  · -- The disjunction of a single group is its conjunction, which so comes to the top.
    obtain ⟨group, rfl⟩ := List.length_eq_one_iff.1 hlength
    obtain ⟨d, rfl⟩ := List.length_eq_one_iff.1 (hgroups.length_eq ▸ hlength)
    rw [List.flatten_singleton]
    obtain ⟨⟨hgroup, hd⟩, -⟩ := List.forall₂_cons.1 hgroups
    obtain ⟨cs, rfl, hjunction, hshares⟩ := conjunction_spec hgroup hd
    obtain ⟨haccepts, htexts⟩ := templates_of_shares hshares
    have hor : ¬(Condition.join .and cs).IsJunction .or := Condition.not_isJunction_join nofun hjunction
    rw [Condition.join_singleton hor, template_join_and hjunction, exists_map_ok_iff, haccepts]
    refine ⟨(and_iff_right hlength).symm, fun t ht => ?_⟩
    obtain ⟨ts, hts, rfl⟩ := ok_of_map ht
    rw [Template.render_separated, htexts ts hts]
  · -- Any other number of groups is a disjunction, which is refused before its parts are looked at.
    have hor : ∀ d ∈ ds, ¬d.IsJunction .or := by
      intro d hd
      obtain ⟨group, -, hgroup, hconjunction⟩ := exists_of_mem_forall₂ hgroups hd
      obtain ⟨cs, rfl, hjunction, -⟩ := conjunction_spec hgroup hconjunction
      exact Condition.not_isJunction_join nofun hjunction
    have herror := template_join_or hor (hgroups.length_eq ▸ hlength)
    refine ⟨iff_of_false ?_ fun h => hlength h.1, fun t ht => by cases herror.symm.trans ht⟩
    rintro ⟨t, ht⟩
    cases herror.symm.trans ht

end

/-- The condition of a plan joins the conjunctions of its shares. -/
theorem Plan.shares_of_instantiate {p : Plan} {args : List Value} {c : Condition}
    (h : p.instantiate args = .ok c) :
    ∃ shares ds, p.Shares args shares ∧ shares.mapM conjunction = .ok ds ∧ c = .join .or ds := by
  rw [instantiate] at h
  split at h
  · rename_i hlength
    rw [run'_condition] at h
    split at h
    · rename_i c' hc
      obtain ⟨ds, hds, rfl⟩ := ok_of_map hc
      cases h
      exact ⟨_, ds, shares_deal hlength, hds, rfl⟩
    · cases h
  · cases h

end Name

/-! ## Texts without parentheses -/

/-- There is no parenthesis in the text. -/
def Unparenthesized (s : String) : Prop :=
  ∀ c ∈ s.toList, c ≠ '(' ∧ c ≠ ')'

theorem unparenthesized_of_all {s : String} (h : s.toList.all fun c => c != '(' && c != ')') :
    Unparenthesized s := fun c hc => by
  simpa using List.all_eq_true.1 h c hc

theorem unparenthesized_append {s u : String} (hs : Unparenthesized s) (hu : Unparenthesized u) :
    Unparenthesized (s ++ u) := by
  rw [Unparenthesized, String.toList_append]
  exact List.forall_mem_append.2 ⟨hs, hu⟩

theorem unparenthesized_intercalate {separator : String} (hseparator : Unparenthesized separator)
    {parts : List String} (h : ∀ s ∈ parts, Unparenthesized s) :
    Unparenthesized (separator.intercalate parts) := by
  induction parts with
  | nil => exact nofun
  | cons s parts ih =>
    obtain ⟨hs, hparts⟩ := List.forall_mem_cons.1 h
    cases parts with
    | nil =>
      rw [String.intercalate_singleton]
      exact hs
    | cons u parts =>
      rw [String.intercalate_cons_cons]
      exact unparenthesized_append (unparenthesized_append hs hseparator) (ih hparts)

namespace Name

open Grammar

theorem unparenthesized_asked {field : String} (hfield : IsNameText field.toList) (op : Operator) :
    Unparenthesized (asked field op) := by
  have hbare : Unparenthesized field := by
    intro c hc
    constructor <;> rintro rfl <;> obtain h | h := hfield _ hc <;> cases h
  cases op with
  | between =>
    have hlow := unparenthesized_append hbare (unparenthesized_of_all (s := " >= ? AND ") rfl)
    exact unparenthesized_append (unparenthesized_append hlow hbare) (unparenthesized_of_all rfl)
  | _ =>
    have hspace := unparenthesized_append hbare (unparenthesized_of_all (s := " ") rfl)
    exact unparenthesized_append (unparenthesized_append hspace (unparenthesized_of_all rfl))
      (unparenthesized_of_all rfl)

/-- The fields of a plan that a name spells are made of letters, digits and underscores. -/
theorem isNameText_field {name : String} {p : Plan} (h : parse name = .ok p) :
    ∀ s ∈ p.segments, IsNameText s.field.toList := by
  intro s hs
  obtain ⟨pieces, hsentence, hreads⟩ := exists_sentence h
  obtain ⟨piece, hpiece, hread⟩ := exists_of_mem_forall₂ (List.rel_flatten hreads) hs
  exact (hread.isNameText (hsentence.isText hpiece)).2

/-! ## Plans -/

/-- A plan that a name spells has a filter in the dialect without parentheses if it has a single group, no
segment negates, and the arguments of every segment suit it. The text asks for the segments in the order of
the name with `AND` between them, and has no parentheses. -/
theorem Plan.ungrouped_toFilter {name : String} {p : Plan} {args : List Value} {c : Condition}
    (h : parse name = .ok p) (hc : p.instantiate args = .ok c) (projection : List String) :
    ∃ shares, p.Shares args shares ∧
      (c.AcceptedBy .driverPositional projection ↔ p.disjuncts.length = 1 ∧
        (∀ s ∈ p.segments, s.keyword.negates = false) ∧ ∀ share ∈ shares.flatten, share.Suits) ∧
      ∀ f, c.toFilter .driverPositional projection = .ok f →
        f = .text (" AND ".intercalate (p.segments.map fun s => asked s.field s.keyword.operator))
            (.positional (c.values .driverPositional)) ∧
          Unparenthesized f.queryText := by
  obtain ⟨shares, ds, hshares, hds, rfl⟩ := shares_of_instantiate hc
  obtain ⟨haccepts, htext⟩ := template_of_groups hshares.full hds
  have hsegments : p.segments = shares.flatten.map Share.segment := by
    rw [segments, ← hshares.segments, List.map_flatten]
  refine ⟨shares, hshares, ?accepted, fun f hf => ?text⟩
  case accepted =>
    have hfilter : (Condition.join .or ds).AcceptedBy .driverPositional projection ↔
        ∃ t, driverPositional.template false (.join .or ds) = .ok t := exists_map_ok_iff
    rw [hfilter, haccepts, forall₂_and, hsegments, List.forall_mem_map, ← hshares.segments, List.length_map]
  case text =>
    obtain ⟨t, ht, rfl⟩ := ok_of_map hf
    have hquery : t.render (fun _ => "?") id =
        " AND ".intercalate (p.segments.map fun s => asked s.field s.keyword.operator) := by
      rw [htext t ht, hsegments, List.map_map]
      rfl
    have hvalues : t.values = (Condition.join .or ds).values .driverPositional :=
      values_template (d := .driverPositional) ht
    constructor
    · show Filter.text (t.render (fun _ => "?") id) (.positional t.values) = _
      rw [hquery, hvalues]
    · show Unparenthesized (t.render (fun _ => "?") id)
      rw [hquery]
      refine unparenthesized_intercalate (unparenthesized_of_all rfl) (List.forall_mem_map.2 fun s hs => ?_)
      exact unparenthesized_asked (isNameText_field h s hs) _

/-- A range and a list in one group. -/
def ranged : Plan where
  subject := .find
  disjuncts := [[⟨"age", .between⟩, ⟨"name", .matching .contains⟩, ⟨"tags", .oneOf⟩]]

theorem parse_ranged : parse "findByAgeBetweenAndNameContainingAndTagsIn" = .ok ranged := by
  decide +kernel

theorem ungrouped_ranged :
    ∃ c, ranged.instantiate [.int 18, .int 65, .str "a", .list []] = .ok c ∧
      c.AcceptedBy .driverPositional [] ∧
      ∀ f, c.toFilter .driverPositional [] = .ok f →
        f.queryText = "age >= ? AND age <= ? AND name LIKE ? AND tags IN ?" := by
  refine ⟨_, rfl, ?_⟩
  obtain ⟨shares, hshares, haccepts, htext⟩ := Plan.ungrouped_toFilter parse_ranged
    (show ranged.instantiate [.int 18, .int 65, .str "a", .list []] = .ok _ from rfl) []
  cases hshares.eq_deal
  have hsuits : ∀ share ∈ [⟨⟨"age", .between⟩, [.int 18, .int 65]⟩,
      ⟨⟨"name", .matching .contains⟩, [.str "a"]⟩, Share.mk ⟨"tags", .oneOf⟩ [.list []]],
      share.Suits :=
    List.forall_mem_cons.2 ⟨⟨nofun, nofun⟩, List.forall_mem_cons.2 ⟨⟨nofun, nofun⟩,
      List.forall_mem_singleton.2 ⟨fun _ => ⟨[], rfl⟩, nofun⟩⟩⟩
  refine ⟨haccepts.2 ⟨rfl, by decide, hsuits⟩, fun f hf => ?_⟩
  rw [(htext f hf).1]
  rfl

end Name

end QueryMethods
