/-
What a plan means: each segment tests its field against its own share of the arguments, and the plan
asks for a group whose segments all pass. The shares are the arguments cut up in the order of the name:
a segment takes as many as its keyword asks for from those that the segments before it have left.
-/
import QueryMethods.Name.Meaning
import QueryMethods.Proofs.Condition.Joining
import QueryMethods.Proofs.Name.Grammar
import QueryMethods.Proofs.Name.RoundTrip

namespace QueryMethods.Name

/-! ## Shares -/

namespace Keyword

/-- The operator of the comparison that the keyword stands for. -/
def operator : Keyword → Operator
  | .equal | .not => .equal
  | .greaterThan => .greaterThan
  | .greaterEqual => .greaterEqual
  | .lessThan => .lessThan
  | .lessEqual => .lessEqual
  | .between => .between
  | .oneOf | .notOneOf => .oneOf
  | .like | .notLike | .matching _ => .like

/-- The keyword asks that its comparison does not hold. -/
def negates : Keyword → Bool
  | .not | .notOneOf | .notLike => true
  | _ => false

end Keyword

/-- A segment and the arguments that it takes. -/
structure Share where
  segment : Segment
  args : List Value

namespace Share

/-- What the field is compared with. A text that is looked for stands in a pattern. -/
def operand? (share : Share) : Option Operand :=
  match share.segment.keyword, share.args with
  | .between, [low, high] => some (.range low high)
  | .between, _ => none
  | .matching kind, [.str s] => some (.value (.str (kind.around s)))
  | .matching _, _ => none
  | _, [v] => some (.value v)
  | _, _ => none

/-- The comparison that the share asks for, if its arguments fit. -/
def comparison? (share : Share) : Option Comparison :=
  share.operand?.map (⟨share.segment.field, share.segment.keyword.operator, ·⟩)

/-- Whether the segment passes, given the truth of comparisons. -/
def test (share : Share) (holds : Comparison → Bool) : Bool :=
  share.comparison?.any fun k => holds k != share.segment.keyword.negates

/-- Why the segment refuses its arguments: only a text can be looked for. -/
def refusal? (share : Share) : Option ConditionError :=
  match share.segment.keyword, share.args with
  | .matching _, [.str _] => none
  | .matching kind, [.null] => some (.nullMatch kind)
  | .matching _, [v] => some (.operandType .like share.segment.field .string (.value v.kind))
  | _, _ => none

/-- The segment takes as many arguments as its keyword asks for. -/
def IsFull (share : Share) : Prop :=
  share.args.length = share.segment.keyword.arity

/-- The condition that the segment makes of its own arguments. -/
def condition (share : Share) : Except ConditionError Condition :=
  share.segment.condition.run' share.args

variable {share : Share}

/-- The condition of a segment is its comparison, perhaps negated, unless it refuses its arguments. -/
theorem condition_spec (hfull : share.IsFull) :
    (∃ e, share.condition = .error e ∧ share.refusal? = some e) ∨
      share.refusal? = none ∧ ∃ k, share.comparison? = some k ∧
        share.condition =
          .ok (if share.segment.keyword.negates then .not (.comparison k) else .comparison k) := by
  obtain ⟨⟨field, keyword⟩, args⟩ := share
  cases keyword with
  | between =>
    obtain ⟨low, high, rfl⟩ := List.length_eq_two.1 hfull
    exact .inr ⟨rfl, _, rfl, rfl⟩
  | matching kind =>
    obtain ⟨v, rfl⟩ := List.length_eq_one_iff.1 hfull
    cases v with
    | str s => exact .inr ⟨rfl, _, rfl, rfl⟩
    | _ => exact .inl ⟨_, rfl, rfl⟩
  | _ =>
    obtain ⟨v, rfl⟩ := List.length_eq_one_iff.1 hfull
    exact .inr ⟨rfl, _, rfl, rfl⟩

theorem errorOf?_condition (hfull : share.IsFull) : errorOf? share.condition = share.refusal? := by
  obtain ⟨e, hcondition, hrefusal⟩ | ⟨hrefusal, k, -, hcondition⟩ := condition_spec hfull
  · rw [hcondition, hrefusal, errorOf?]
  · rw [hcondition, hrefusal, errorOf?]

theorem isSome_comparison? (hfull : share.IsFull) (h : share.refusal? = none) :
    share.comparison?.isSome := by
  obtain ⟨e, -, hrefusal⟩ | ⟨-, k, hk, -⟩ := condition_spec hfull
  · cases hrefusal.symm.trans h
  · rw [hk, Option.isSome_some]

theorem means_condition {c : Condition} (hfull : share.IsFull) (h : share.condition = .ok c) :
    c.Means share.test := by
  obtain ⟨e, hcondition, -⟩ | ⟨-, k, hk, hcondition⟩ := condition_spec hfull
  · cases hcondition.symm.trans h
  cases hcondition.symm.trans h
  refine ⟨fun holds => ?_, ?_⟩
  · rw [test, hk, Option.any_some]
    cases share.segment.keyword.negates <;> simp [Condition.eval]
  · split <;> trivial

end Share

/-! ## Dealing out the arguments -/

/-- The shares of segments that take their arguments one after the other. -/
def dealGroup : List Segment → List Value → List Share
  | [], _ => []
  | s :: r, args => ⟨s, args.take s.keyword.arity⟩ :: dealGroup r (args.drop s.keyword.arity)

/-- The shares of groups that take their arguments one after the other. -/
def deal : List (List Segment) → List Value → List (List Share)
  | [], _ => []
  | group :: r, args => dealGroup group args :: deal r (args.drop (Plan.arityOf group))

theorem Plan.arityOf_eq_foldr (ss : List Segment) :
    arityOf ss = (ss.map (·.keyword.arity)).foldr (· + ·) 0 := by
  induction ss with
  | nil => rfl
  | cons s ss ih => rw [arityOf, ih, List.map_cons, List.foldr_cons]

theorem segments_dealGroup (ss : List Segment) (args : List Value) :
    (dealGroup ss args).map Share.segment = ss := by
  induction ss generalizing args with
  | nil => rfl
  | cons s ss ih => rw [dealGroup, List.map_cons, ih]

theorem args_dealGroup (ss : List Segment) (args : List Value) :
    (dealGroup ss args).flatMap Share.args = args.take (Plan.arityOf ss) := by
  induction ss generalizing args with
  | nil => rw [dealGroup, Plan.arityOf, List.take_zero, List.flatMap_nil]
  | cons s ss ih => rw [dealGroup, List.flatMap_cons, ih, Plan.arityOf, List.take_add]

theorem isFull_dealGroup {ss : List Segment} {args : List Value}
    (h : Plan.arityOf ss ≤ args.length) : ∀ share ∈ dealGroup ss args, share.IsFull := by
  induction ss generalizing args with
  | nil => exact nofun
  | cons s ss ih =>
    rw [Plan.arityOf] at h
    refine List.forall_mem_cons.2 ⟨List.length_take_of_le (by omega), ih ?_⟩
    rw [List.length_drop]
    omega

theorem dealGroup_append (ss ts : List Segment) (args : List Value) :
    dealGroup (ss ++ ts) args = dealGroup ss args ++ dealGroup ts (args.drop (Plan.arityOf ss)) := by
  induction ss generalizing args with
  | nil => rfl
  | cons s ss ih => rw [List.cons_append, dealGroup, ih, dealGroup, Plan.arityOf, List.drop_drop]; rfl

/-- The groups do not matter for who takes which arguments. -/
theorem flatten_deal (groups : List (List Segment)) (args : List Value) :
    (deal groups args).flatten = dealGroup groups.flatten args := by
  induction groups generalizing args with
  | nil => rfl
  | cons group groups ih => rw [deal, List.flatten_cons, ih, List.flatten_cons, dealGroup_append]

theorem segments_deal (groups : List (List Segment)) (args : List Value) :
    (deal groups args).map (·.map Share.segment) = groups := by
  induction groups generalizing args with
  | nil => rfl
  | cons group groups ih => rw [deal, List.map_cons, ih, segments_dealGroup]

theorem length_args {shares : List Share} (hfull : ∀ share ∈ shares, share.IsFull) :
    (shares.flatMap Share.args).length = Plan.arityOf (shares.map Share.segment) := by
  induction shares with
  | nil => rfl
  | cons share shares ih =>
    obtain ⟨hshare, hshares⟩ := List.forall_mem_cons.1 hfull
    rw [List.flatMap_cons, List.length_append, hshare, ih hshares, List.map_cons, Plan.arityOf]

theorem dealGroup_args {group : List Share} (hfull : ∀ share ∈ group, share.IsFull)
    (rest : List Value) :
    dealGroup (group.map Share.segment) (group.flatMap Share.args ++ rest) = group := by
  induction group with
  | nil => rfl
  | cons share group ih =>
    obtain ⟨hshare, hgroup⟩ := List.forall_mem_cons.1 hfull
    rw [List.map_cons, List.flatMap_cons, List.append_assoc, dealGroup, List.take_left' hshare,
      List.drop_left' hshare, ih hgroup]

/-- Dealing out the arguments of full shares gives the shares back. -/
theorem deal_args {shares : List (List Share)} (hfull : ∀ share ∈ shares.flatten, share.IsFull) :
    deal (shares.map (·.map Share.segment)) (shares.flatten.flatMap Share.args) = shares := by
  induction shares with
  | nil => rfl
  | cons group shares ih =>
    obtain ⟨hgroup, hshares⟩ := List.forall_mem_append.1 hfull
    rw [List.map_cons, List.flatten_cons, List.flatMap_append, deal, dealGroup_args hgroup,
      List.drop_left' (length_args hgroup), ih hshares]

namespace Plan

/-- The arguments are dealt out to the segments: every one goes to one segment, in the order of the
name, and every segment takes as many as its keyword asks for. -/
structure Shares (p : Plan) (args : List Value) (shares : List (List Share)) : Prop where
  segments : shares.map (·.map Share.segment) = p.disjuncts
  args : shares.flatten.flatMap Share.args = args
  full : ∀ share ∈ shares.flatten, share.IsFull

variable {p : Plan} {args : List Value} {shares : List (List Share)}

theorem shares_deal (h : args.length = p.arity) : p.Shares args (deal p.disjuncts args) where
  segments := segments_deal _ _
  args := by
    rw [flatten_deal, args_dealGroup]
    exact List.take_of_length_le (Nat.le_of_eq h)
  full := by
    rw [flatten_deal]
    exact isFull_dealGroup (Nat.le_of_eq h.symm)

theorem Shares.eq_deal (h : p.Shares args shares) : deal p.disjuncts args = shares := by
  rw [← h.segments, ← h.args, deal_args h.full]

theorem Shares.length_eq (h : p.Shares args shares) : args.length = p.arity := by
  rw [← h.args, length_args h.full, List.map_flatten, h.segments]
  rfl

end Plan

/-! ## The conditions of shares -/

/-- The conjunction that a group of shares makes. -/
def conjunction (group : List Share) : Except ConditionError Condition :=
  Condition.join .and <$> group.mapM Share.condition

/-- A segment takes as many arguments as its keyword asks for and leaves the others as they are. -/
theorem Segment.condition_run (s : Segment) (args : List Value) :
    s.condition.run args =
      (·, args.drop s.keyword.arity) <$> Share.condition ⟨s, args.take s.keyword.arity⟩ := by
  obtain ⟨field, keyword⟩ := s
  cases keyword with
  | between => rcases args with _ | ⟨low, _ | ⟨high, args⟩⟩ <;> rfl
  | matching kind =>
    rcases args with _ | ⟨v, args⟩
    · rfl
    · cases v <;> rfl
  | _ => cases args <;> rfl

section

variable {α β : Type} {t : Taking α} {x : Except ConditionError α} {args left left' : List Value}

theorem run_map (f : α → β) (h : t.run args = (·, left) <$> x) :
    (f <$> t).run args = (·, left) <$> f <$> x := by
  rw [StateT.run_map, h]
  cases x <;> rfl

/-- What is taken second is taken from what the first has left. -/
theorem run_cons {ts : Taking (List α)} {xs : Except ConditionError (List α)}
    (h : t.run args = (·, left) <$> x) (hs : ts.run left = (·, left') <$> xs) :
    (do return (← t) :: (← ts) : Taking (List α)).run args =
      (·, left') <$> (do return (← x) :: (← xs)) := by
  rw [StateT.run_bind, h]
  cases x with
  | error e => rfl
  | ok a =>
    have hrest : ((a :: ·) <$> ts).run left = (·, left') <$> (a :: ·) <$> xs := run_map (a :: ·) hs
    exact hrest

end

namespace Plan

/-- Segments that take their arguments one after the other take those that are dealt out to them. -/
theorem groupCondition_run (group : List Segment) (args : List Value) :
    (groupCondition group).run args =
      (·, args.drop (arityOf group)) <$> conjunction (dealGroup group args) := by
  refine run_map (Condition.join .and) ?_
  induction group generalizing args with
  | nil => rfl
  | cons s group ih =>
    rw [List.mapM_cons, dealGroup, List.mapM_cons, arityOf, ← List.drop_drop]
    exact run_cons (s.condition_run args) (ih _)

theorem arityOf_append (ss ts : List Segment) : arityOf (ss ++ ts) = arityOf ss + arityOf ts := by
  induction ss with
  | nil => rw [List.nil_append, arityOf, Nat.zero_add]
  | cons s ss ih => rw [List.cons_append, arityOf, ih, arityOf, Nat.add_assoc]

/-- The groups of a plan take what is dealt out to them, all together as much as the arity says. -/
theorem condition_run (p : Plan) (args : List Value) :
    p.condition.run args =
      (·, args.drop p.arity) <$> Condition.join .or <$> (deal p.disjuncts args).mapM conjunction := by
  refine run_map (Condition.join .or) ?_
  rw [arity, segments]
  induction p.disjuncts generalizing args with
  | nil => rfl
  | cons group groups ih =>
    rw [List.mapM_cons, deal, List.mapM_cons, List.flatten_cons, arityOf_append, ← List.drop_drop]
    exact run_cons (groupCondition_run group args) (ih _)

theorem run'_condition (p : Plan) (args : List Value) :
    p.condition.run' args = Condition.join .or <$> (deal p.disjuncts args).mapM conjunction := by
  show Prod.fst <$> p.condition.run args = _
  rw [condition_run]
  cases (deal p.disjuncts args).mapM conjunction <;> rfl

end Plan

theorem errorOf?_conjunction {group : List Share} (hfull : ∀ share ∈ group, share.IsFull) :
    errorOf? (conjunction group) = group.findSome? Share.refusal? := by
  rw [conjunction, errorOf?_map, errorOf?_mapM]
  induction group with
  | nil => rfl
  | cons share group ih =>
    rw [List.forall_mem_cons] at hfull
    rw [List.findSome?_cons, List.findSome?_cons, Share.errorOf?_condition hfull.1, ih hfull.2]

/-- The first share that refuses its arguments says why there is no condition. -/
theorem errorOf?_conjunctions {groups : List (List Share)}
    (hfull : ∀ share ∈ groups.flatten, share.IsFull) :
    errorOf? (groups.mapM conjunction) = groups.flatten.findSome? Share.refusal? := by
  rw [errorOf?_mapM]
  induction groups with
  | nil => rfl
  | cons group groups ih =>
    rw [List.flatten_cons, List.forall_mem_append] at hfull
    rw [List.findSome?_cons, List.flatten_cons, List.findSome?_append,
      errorOf?_conjunction hfull.1, ih hfull.2]
    cases group.findSome? Share.refusal? <;> rfl

theorem means_conjunction {group : List Share} {c : Condition}
    (hfull : ∀ share ∈ group, share.IsFull) (h : conjunction group = .ok c) :
    c.Means fun holds => group.all (·.test holds) := by
  obtain ⟨cs, hcs, rfl⟩ := ok_of_map h
  have hparts := (List.forall₂_and_left group cs).2 ⟨hfull, forall₂_of_mapM hcs⟩
  have hmeans := Condition.means_join .and Share.test <|
    hparts.imp fun _ _ h => Share.means_condition h.1 h.2
  simpa only [Junction.combine, List.all_map, Function.id_comp] using hmeans

/-- Each group of full shares made the conjunction at its place. -/
theorem forall₂_conjunctions {groups : List (List Share)} {cs : List Condition}
    (hfull : ∀ share ∈ groups.flatten, share.IsFull) (h : groups.mapM conjunction = .ok cs) :
    List.Forall₂ (fun group c => (∀ share ∈ group, share.IsFull) ∧ conjunction group = .ok c) groups cs := by
  refine (List.forall₂_and_left groups cs).2 ⟨fun group hgroup share hshare => ?_, forall₂_of_mapM h⟩
  exact hfull share (List.mem_flatten_of_mem hgroup hshare)

theorem means_conjunctions {groups : List (List Share)} {cs : List Condition}
    (hfull : ∀ share ∈ groups.flatten, share.IsFull) (h : groups.mapM conjunction = .ok cs) :
    (Condition.join .or cs).Means fun holds =>
      groups.any (·.all (·.test holds)) := by
  have hmeans := Condition.means_join .or (fun (group : List Share) holds => group.all (·.test holds)) <|
    (forall₂_conjunctions hfull h).imp fun _ _ h => means_conjunction h.1 h.2
  simpa only [Junction.combine, List.any_map, Function.id_comp] using hmeans

/-! ## The condition of a plan -/

namespace Plan

variable {p : Plan} {args : List Value} {shares : List (List Share)}

theorem Shares.instantiate_of_refusal (h : p.Shares args shares) {cause : ConditionError}
    (hrefusal : shares.flatten.findSome? Share.refusal? = some cause) :
    p.instantiate args = .error (.condition cause) := by
  rw [← errorOf?_conjunctions h.full] at hrefusal
  rw [instantiate, if_pos h.length_eq, run'_condition, h.eq_deal]
  cases hconditions : shares.mapM conjunction with
  | error e => rw [hconditions] at hrefusal; cases hrefusal; rfl
  | ok cs => rw [hconditions] at hrefusal; cases hrefusal

theorem Shares.instantiate_of_no_refusal (h : p.Shares args shares)
    (hrefusal : shares.flatten.findSome? Share.refusal? = none) :
    ∃ c, p.instantiate args = .ok c ∧ c.Means fun holds => shares.any (·.all (·.test holds)) := by
  rw [← errorOf?_conjunctions h.full] at hrefusal
  obtain ⟨cs, hcs⟩ := errorOf?_eq_none_iff.1 hrefusal
  refine ⟨.join .or cs, ?_, means_conjunctions h.full hcs⟩
  rw [instantiate, if_pos h.length_eq, run'_condition, h.eq_deal, hcs]
  rfl

end Plan

/-- The keyword of a segment is that of a phrase or `equal`. -/
theorem EndsIn.ne_whole {ws phrase : List String} {keyword : Keyword}
    (h : EndsIn ws phrase keyword) : keyword ≠ .matching .whole := by
  have hphrases : ∀ p ∈ Keyword.phrases, p.2 ≠ .matching .whole := by decide
  cases h with
  | phrase hmem _ _ => exact hphrases _ hmem
  | plain _ => exact nofun

theorem parse_ne_whole {name : String} {p : Plan} (h : parse name = .ok p) :
    ∀ s ∈ p.segments, s.keyword ≠ .matching .whole := by
  obtain ⟨pieces, -, hreads⟩ := exists_sentence h
  intro s hs
  obtain ⟨piece, -, hread⟩ := exists_of_mem_forall₂ (List.rel_flatten hreads) hs
  obtain ⟨-, hends, -⟩ := hread
  exact hends.ne_whole

/-- A plan that a name spells takes as many arguments as its keywords ask for, refuses them for the
first text that cannot be looked for, and otherwise asks for a group whose segments all pass, each on
its own share of the arguments. -/
theorem Plan.meaning_instantiate {name : String} {p : Plan} (h : parse name = .ok p)
    (args : List Value) :
    p.arity = (p.segments.map (·.keyword.arity)).foldr (· + ·) 0 ∧
      (∀ s ∈ p.segments, s.keyword ≠ .matching .whole) ∧
      (∀ e, p.instantiate args = .error (.binding e) ↔
        args.length ≠ p.arity ∧ e = .argumentCount p.arity args.length) ∧
      (args.length = p.arity ↔ ∃ shares, p.Shares args shares) ∧
      ∀ shares, p.Shares args shares →
        (∀ e, p.instantiate args = .error e ↔
          ∃ cause, shares.flatten.findSome? Share.refusal? = some cause ∧ e = .condition cause) ∧
        (shares.flatten.findSome? Share.refusal? = none → ∃ c, p.instantiate args = .ok c ∧
          (∀ share ∈ shares.flatten, share.comparison?.isSome) ∧
          (∀ holds, c.eval holds = shares.any (·.all (·.test holds))) ∧ c.Normal) := by
  refine ⟨arityOf_eq_foldr _, parse_ne_whole h, fun e => ?count,
    ⟨fun hlength => ⟨_, shares_deal hlength⟩, fun ⟨_, hshares⟩ => hshares.length_eq⟩,
    fun shares hshares => ⟨fun e => ⟨fun he => ?refused, ?refusal⟩, fun hnone => ?condition⟩⟩
  case count =>
    rw [instantiate]
    split
    · rename_i hlength
      refine ⟨fun he => ?_, fun ⟨hne, _⟩ => absurd hlength hne⟩
      split at he <;> cases he
    · rename_i hlength
      exact ⟨fun he => by cases he; exact ⟨hlength, rfl⟩, fun ⟨_, he⟩ => by rw [he]⟩
  case refused =>
    cases hrefusal : shares.flatten.findSome? Share.refusal? with
    | none =>
      obtain ⟨c, hc, -⟩ := hshares.instantiate_of_no_refusal hrefusal
      cases he.symm.trans hc
    | some cause =>
      cases he.symm.trans (hshares.instantiate_of_refusal hrefusal)
      exact ⟨cause, rfl, rfl⟩
  case refusal =>
    rintro ⟨cause, hrefusal, rfl⟩
    exact hshares.instantiate_of_refusal hrefusal
  case condition =>
    obtain ⟨c, hc, heval, hnormal⟩ := hshares.instantiate_of_no_refusal hnone
    have haccepts := List.findSome?_eq_none_iff.1 hnone
    exact ⟨c, hc, fun share hshare =>
      Share.isSome_comparison? (hshares.full share hshare) (haccepts share hshare), heval, hnormal⟩

/-- A range and a text that is looked for, or a list that is ruled out. -/
def mixed : Plan where
  subject := .find
  disjuncts :=
    [[⟨"age", .between⟩, ⟨"name", .matching .contains⟩], [⟨"tags", .notOneOf⟩]]

theorem parse_mixed : parse "findByAgeBetweenAndNameContainingOrTagsNotIn" = .ok mixed :=
  (parse_spell .camel (w := "find")
    (r := ["by", "age", "between", "and", "name", "containing", "or", "tags", "not", "in"])
    (by decide) (by decide)).trans rfl

theorem shares_mixed (low high text tags : Value) :
    mixed.Shares [low, high, text, tags]
      [[⟨⟨"age", .between⟩, [low, high]⟩, ⟨⟨"name", .matching .contains⟩, [text]⟩],
        [⟨⟨"tags", .notOneOf⟩, [tags]⟩]] where
  segments := rfl
  args := rfl
  full := by simp [Share.IsFull, Keyword.arity]

theorem meaning_mixed :
    mixed.instantiate [.int 18] = .error (.binding (.argumentCount 4 1)) ∧
      mixed.instantiate [.int 18, .int 65, .null, .list []] =
        .error (.condition (.nullMatch .contains)) ∧
      ∃ c, mixed.instantiate [.int 18, .int 65, .str "ada", .list []] = .ok c ∧ c.Normal ∧
        ∀ holds, c.eval holds =
          (holds ⟨"age", .between, .range (.int 18) (.int 65)⟩ &&
              holds ⟨"name", .like, .value (.str "%ada%")⟩ ||
            !holds ⟨"tags", .oneOf, .value (.list [])⟩) := by
  have hmeaning := Plan.meaning_instantiate parse_mixed
  refine ⟨((hmeaning _).2.2.1 _).2 ⟨by decide, rfl⟩, ?_, ?_⟩
  · obtain ⟨herror, -⟩ := (hmeaning _).2.2.2.2 _ (shares_mixed (.int 18) (.int 65) .null (.list []))
    exact (herror _).2 ⟨_, rfl, rfl⟩
  · obtain ⟨-, hcondition⟩ :=
      (hmeaning _).2.2.2.2 _ (shares_mixed (.int 18) (.int 65) (.str "ada") (.list []))
    obtain ⟨c, hc, -, heval, hnormal⟩ := hcondition rfl
    refine ⟨c, hc, hnormal, fun holds => (heval holds).trans ?_⟩
    simp [Share.test, Share.comparison?, Share.operand?, Keyword.operator, Keyword.negates,
      MatchKind.around]

end QueryMethods.Name
