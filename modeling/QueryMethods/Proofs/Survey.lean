/-
Surveys never trip over their own samples. The samples of a plan are as many as its segments take, each
suits its keyword, and none is an empty list. So the plan always makes a condition of them, and a dialect
has a filter for it unless the name asks for what the dialect lacks: what a segment stands for, or a
second group.
-/
import QueryMethods.Proofs.Filter.Support
import QueryMethods.Survey

namespace QueryMethods

namespace Name

/-! ## The comparisons of a condition -/

theorem flatMap_of_forall₂ {α β γ : Type} {f : α → List γ} {g : β → List γ} {as : List α} {bs : List β}
    (h : List.Forall₂ (fun a b => g b = f a) as bs) : bs.flatMap g = as.flatMap f := by
  induction h with
  | nil => rfl
  | cons hfirst _ ih => rw [List.flatMap_cons, List.flatMap_cons, hfirst, ih]

theorem Share.comparisons_condition {share : Share} {c : Condition} (hfull : share.IsFull)
    (h : share.condition = .ok c) : c.comparisons = share.comparison?.toList := by
  obtain ⟨e, he, -⟩ | ⟨-, k, hk, hc⟩ := condition_spec hfull
  · cases he.symm.trans h
  · cases hc.symm.trans h
    rw [hk]
    split <;> rfl

theorem comparisons_conjunction {group : List Share} {c : Condition}
    (hfull : ∀ share ∈ group, share.IsFull) (h : conjunction group = .ok c) :
    c.comparisons = group.flatMap fun share => share.comparison?.toList := by
  obtain ⟨cs, rfl, -, hshares⟩ := conjunction_spec hfull h
  rw [Condition.comparisons_join]
  exact flatMap_of_forall₂ (hshares.imp fun _ _ h => Share.comparisons_condition h.1 h.2)

/-- The groups of a plan make a condition with the comparisons of their shares, in the order of the name. -/
theorem comparisons_conjunctions {groups : List (List Share)} {ds : List Condition}
    (hfull : ∀ share ∈ groups.flatten, share.IsFull) (h : groups.mapM conjunction = .ok ds) :
    (Condition.join .or ds).comparisons = groups.flatten.flatMap fun share => share.comparison?.toList := by
  rw [Condition.comparisons_join, List.flatten_eq_flatMap, List.flatMap_assoc]
  have hgroups := forall₂_conjunctions hfull h
  exact flatMap_of_forall₂ (hgroups.imp fun _ _ h => comparisons_conjunction h.1 h.2)

end Name

/-! ## Samples -/

/-- The dialect has a form for what a segment with the keyword asks of its sample. -/
def Dialect.TakesSample (d : Dialect) (k : Name.Keyword) : Prop :=
  match d with
  | .driverPositional => k ∉ [.not, .notOneOf, .notLike]
  | .expressionPositional => k ∉ [.like, .notLike] ∧ ∀ kind, k ≠ .matching kind
  | .itemExpression => k ∉ [.like, .notLike, .matching .endsWith]
  | _ => True

namespace Name

/-- A segment with the arguments that are sampled for it. -/
def Segment.sampled (s : Segment) (index : Nat) : Share :=
  ⟨s, sample s.keyword index⟩

namespace Share

theorem isFull_sampled (s : Segment) (index : Nat) : (s.sampled index).IsFull := by
  obtain ⟨field, keyword⟩ := s
  cases keyword <;> rfl

theorem refusal?_sampled (s : Segment) (index : Nat) : (s.sampled index).refusal? = none := by
  obtain ⟨field, keyword⟩ := s
  cases keyword <;> rfl

theorem suits_sampled (s : Segment) (index : Nat) : (s.sampled index).Suits := by
  obtain ⟨field, keyword⟩ := s
  constructor
  · rintro rfl
    exact ⟨_, rfl⟩
  · rintro rfl
    exact .inr ⟨_, rfl⟩

/-- The functions of an item store cannot look for a text at the end of a field. -/
theorem expressible_around_iff (kind : MatchKind) : Expressible (kind.around "Ada") ↔ kind ≠ .endsWith := by
  rw [← TextTest.exists_ofPattern?_iff, ← Option.isSome_iff_exists]
  cases kind <;> decide

theorem not_expressible_sample : ¬Expressible "A_a%" := by
  rw [← TextTest.exists_ofPattern?_iff, ← Option.isSome_iff_exists]
  decide

variable {s : Segment} {index : Nat} {k : Comparison}

theorem fits_sampled (h : (s.sampled index).comparison? = some k) : k.Fits := by
  obtain ⟨field, keyword⟩ := s
  cases keyword with
  | oneOf | notOneOf => cases h; exact ⟨_, rfl⟩
  | like | notLike | matching => cases h; exact .inr ⟨_, rfl⟩
  | _ => cases h; trivial

theorem not_isEmptyList_sampled (h : (s.sampled index).comparison? = some k) : ¬k.IsEmptyList := by
  obtain ⟨field, keyword⟩ := s
  rintro ⟨hop, hoperand⟩
  cases keyword with
  | oneOf | notOneOf => cases h; cases hoperand
  | _ => cases h; cases hop

/-- Without parentheses the arguments are not looked at, for they suit their keywords. -/
theorem takes_sampled (s : Segment) (index : Nat) :
    (s.sampled index).segment.keyword.negates = false ∧ (s.sampled index).Suits ↔
      Dialect.driverPositional.TakesSample s.keyword := by
  rw [and_iff_left (suits_sampled s index)]
  show s.keyword.negates = false ↔ _
  cases s.keyword <;> simp [Dialect.TakesSample, Keyword.negates]

/-- A dialect has a form for the comparison of a segment with its sample, if it has one for the keyword. -/
theorem says_sampled {d : Dialect} (hd : d ≠ .driverPositional)
    (h : (s.sampled index).comparison? = some k) : d.Says k ↔ d.TakesSample s.keyword := by
  obtain ⟨field, keyword⟩ := s
  cases d with
  | driverPositional => exact absurd rfl hd
  | expressionPositional =>
    obtain ⟨operand, -, rfl⟩ := Option.map_eq_some_iff.1 h
    show keyword.operator ≠ .like ↔ _
    cases keyword <;> simp [Dialect.TakesSample, Keyword.operator]
  | itemExpression =>
    -- Only patterns need a function, and whether there is one depends on the sample itself.
    cases keyword with
    | like | notLike =>
      cases h
      refine iff_of_false (mt Dialect.says_pattern_iff.1 not_expressible_sample) ?_
      simp [Dialect.TakesSample]
    | matching kind =>
      cases h
      refine Dialect.says_pattern_iff.trans ((expressible_around_iff kind).trans ?_)
      simp [Dialect.TakesSample]
    | _ =>
      cases h
      refine iff_of_true (fun hop => ?_) (by simp [Dialect.TakesSample])
      cases hop
  | _ => exact Iff.rfl

end Share

namespace Plan

/-- The segments with their samples, in the order of the name. -/
def sampled (p : Plan) : List Share :=
  p.segments.zipIdx.map fun entry => entry.1.sampled entry.2

theorem segments_sampled (p : Plan) : p.sampled.map Share.segment = p.segments := by
  rw [sampled, List.map_map]
  exact List.zipIdx_map_fst 0 p.segments

theorem isFull_sampled (p : Plan) : ∀ share ∈ p.sampled, share.IsFull :=
  List.forall_mem_map.2 fun entry _ => Share.isFull_sampled entry.1 entry.2

theorem samples_eq (p : Plan) : p.samples = p.sampled.flatMap Share.args := by
  rw [sampled, List.flatMap_map]
  rfl

/-- The samples are dealt out to the segments that they are meant for. -/
theorem shares_samples (p : Plan) : ∃ shares, p.Shares p.samples shares ∧ shares.flatten = p.sampled := by
  have hlength : p.samples.length = p.arity := by
    rw [samples_eq, length_args p.isFull_sampled, segments_sampled, arity]
  refine ⟨_, shares_deal hlength, ?_⟩
  have hdeal := dealGroup_args p.isFull_sampled []
  rwa [segments_sampled, List.append_nil, ← samples_eq, segments, ← flatten_deal] at hdeal

variable {p : Plan}

/-- What is known of each segment with its sample, at any index, is known of all that are sampled. -/
theorem forall_sampled_iff {P : Share → Prop} {Q : Segment → Prop}
    (h : ∀ s index, P (s.sampled index) ↔ Q s) : (∀ share ∈ p.sampled, P share) ↔ ∀ s ∈ p.segments, Q s := by
  rw [← segments_sampled, List.forall_mem_map]
  refine forall₂_congr fun share hshare => ?_
  obtain ⟨entry, -, rfl⟩ := List.mem_map.1 hshare
  exact h entry.1 entry.2

theorem forall_comparisons_iff {P : Comparison → Prop} {Q : Segment → Prop}
    (h : ∀ s index k, (s.sampled index).comparison? = some k → (P k ↔ Q s)) :
    (∀ k ∈ p.sampled.flatMap fun share => share.comparison?.toList, P k) ↔ ∀ s ∈ p.segments, Q s := by
  rw [List.forall_mem_flatMap]
  refine forall_sampled_iff fun s index => ?_
  have hsome := Share.isSome_comparison? (Share.isFull_sampled s index) (Share.refusal?_sampled s index)
  obtain ⟨k, hk⟩ := Option.isSome_iff_exists.1 hsome
  rw [hk, Option.toList_some, List.forall_mem_singleton]
  exact h s index k hk

end Plan

end Name

/-! ## Surveys -/

namespace Name.Plan

/-- A plan makes a condition of its samples, and a dialect has a filter for it if it takes them; any other
dialect lacks a construct. -/
theorem samples_toFilter (p : Plan) : ∃ c, p.instantiate p.samples = .ok c ∧
    ∀ d projection,
      (c.AcceptedBy d projection ↔ (d = .driverPositional → p.disjuncts.length = 1) ∧
        ∀ s ∈ p.segments, d.TakesSample s.keyword) ∧
      ∀ e, c.toFilter d projection = .error e → ∃ construct, e = .unsupported construct d := by
  obtain ⟨shares, hshares, hflatten⟩ := p.shares_samples
  have hnone : shares.flatten.findSome? Share.refusal? = none := by
    rw [hflatten, List.findSome?_eq_none_iff]
    exact List.forall_mem_map.2 fun entry _ => Share.refusal?_sampled entry.1 entry.2
  obtain ⟨c, hc, -⟩ := hshares.instantiate_of_no_refusal hnone
  obtain ⟨shares', ds, hshares', hds, rfl⟩ := shares_of_instantiate hc
  cases hshares.eq_deal.symm.trans hshares'.eq_deal
  have hcomparisons := comparisons_conjunctions hshares.full hds
  rw [hflatten] at hcomparisons
  have hfits : ∀ k ∈ (Condition.join .or ds).comparisons, k.Fits ∧ ¬k.IsEmptyList := by
    rw [hcomparisons]
    refine (forall_comparisons_iff fun s index k hk => iff_of_true ?_ trivial).2 fun _ _ => trivial
    exact ⟨Share.fits_sampled hk, Share.not_isEmptyList_sampled hk⟩
  refine ⟨_, hc, fun d projection => ⟨?_, fun e => Condition.unsupported_of_toFilter hfits⟩⟩
  by_cases hd : d = .driverPositional
  · -- The only dialect that looks at how the comparisons are put together.
    subst hd
    have hfilter : (Condition.join .or ds).AcceptedBy .driverPositional projection ↔
        ∃ t, Grammar.driverPositional.template false (.join .or ds) = .ok t := exists_map_ok_iff
    rw [hfilter, (template_of_groups hshares.full hds).1, imp_iff_right rfl, ← hshares.segments,
      List.length_map, hflatten]
    exact and_congr_right' (forall_sampled_iff Share.takes_sampled)
  · rw [Condition.acceptedBy_iff_says hd, hcomparisons, and_iff_right fun h => absurd h hd]
    refine forall_comparisons_iff fun s index k hk => ?_
    rw [and_iff_right (Share.fits_sampled hk), and_iff_right fun _ => Share.not_isEmptyList_sampled hk]
    exact Share.says_sampled hd hk

end Name.Plan

namespace Survey

open Name

/-- The survey of a name that is a derived query makes a condition of the samples and lists what it becomes
in every dialect. A dialect has a filter for it unless the sample of a segment asks for what it lacks, or
there is more than one group and no disjunction; then the error is that a construct is not supported. -/
theorem filters_ofName {name : String} {p : Plan}
    (h : ({ name, returns := .orderedList } : Method).origin = .ok (.derived p)) :
    ∃ c, p.instantiate p.samples = .ok c ∧
      ofName name = .filters (Dialect.all.map fun d => (d, c.toFilter d [])) ∧
      ∀ d projection,
        (c.AcceptedBy d projection ↔ (d = .driverPositional → p.disjuncts.length = 1) ∧
          ∀ s ∈ p.segments, d.TakesSample s.keyword) ∧
        ∀ e, c.toFilter d projection = .error e → ∃ construct, e = .unsupported construct d := by
  obtain ⟨c, hc, hdialects⟩ := p.samples_toFilter
  refine ⟨c, hc, ?_, hdialects⟩
  simp only [ofName, h, hc]

/-- Two groups, with a text that is looked for and a list that is ruled out. -/
theorem filters_mixed :
    ∃ c, mixed.instantiate [.int 0, .int 10, .str "Ada", .list [.str "a", .str "b"]] = .ok c ∧
      c.AcceptedBy .searchIndex [] ∧ c.AcceptedBy .itemExpression [] ∧
      ¬c.AcceptedBy .expressionPositional [] ∧
      ∃ construct, c.toFilter .driverPositional [] =
        .error (.unsupported construct .driverPositional) := by
  have horigin : Method.origin
      { name := "findByAgeBetweenAndNameContainingOrTagsNotIn", returns := .orderedList } =
        .ok (.derived mixed) := by decide +kernel
  obtain ⟨c, hc, -, hdialects⟩ := filters_ofName horigin
  have haccepts (d : Dialect) : c.AcceptedBy d [] ↔ (d = .driverPositional → 2 = 1) ∧
      ∀ s ∈ [⟨"age", .between⟩, ⟨"name", .matching .contains⟩, Segment.mk "tags" .notOneOf],
        d.TakesSample s.keyword := (hdialects d []).1
  simp only [Dialect.TakesSample] at haccepts
  refine ⟨c, hc, (haccepts .searchIndex).2 (by simp), (haccepts .itemExpression).2 (by simp),
    mt (haccepts .expressionPositional).1 (by simp), ?_⟩
  cases hfilter : c.toFilter .driverPositional [] with
  | ok f => cases ((haccepts .driverPositional).1 ⟨f, hfilter⟩).1 rfl
  | error e =>
    obtain ⟨construct, rfl⟩ := (hdialects .driverPositional []).2 e hfilter
    exact ⟨construct, rfl⟩

end Survey

end QueryMethods
