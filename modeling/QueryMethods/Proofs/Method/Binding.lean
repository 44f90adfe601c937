/-
What arguments are bound to. Binding succeeds exactly if no binding name repeats and there is one
argument for each parameter, and then it gives the names with their arguments in the order of the
declaration. A name that repeats is told before the arguments are counted, and it is the first that does.
-/
import QueryMethods.Method.Binding
import QueryMethods.Proofs.Entries
import QueryMethods.Proofs.Outcome

namespace QueryMethods

/-! ## Repetitions -/

theorem firstRepeated?_eq_none_iff (names : List String) :
    ∀ seen, firstRepeated? seen names = none ↔ names.Nodup ∧ ∀ k ∈ names, k ∉ seen := by
  induction names with
  | nil => intro seen; exact ⟨fun _ => ⟨List.nodup_nil, nofun⟩, fun _ => rfl⟩
  | cons k names ih =>
    intro seen
    unfold firstRepeated?
    split
    · rename_i hk
      exact ⟨nofun, fun ⟨_, hnew⟩ => absurd hk (hnew k List.mem_cons_self)⟩
    · rename_i hk
      rw [ih, List.nodup_cons]
      -- What is seen after the first name is that name and what was seen before.
      constructor
      · rintro ⟨hnodup, hnew⟩
        refine ⟨⟨fun h => hnew k h List.mem_cons_self, hnodup⟩, fun k' hk' hs => ?_⟩
        rcases List.mem_cons.1 hk' with rfl | hk'
        · exact hk hs
        · exact hnew k' hk' (List.mem_cons_of_mem k hs)
      · rintro ⟨⟨hfirst, hnodup⟩, hnew⟩
        refine ⟨hnodup, fun k' hk' hs => ?_⟩
        rcases List.mem_cons.1 hs with rfl | hs
        · exact hfirst hk'
        · exact hnew k' (List.mem_cons_of_mem k hk') hs

/-- The name that is found stands among those before it or was seen, and up to there none did. -/
theorem firstRepeated?_eq_some_iff {k : String} (names : List String) :
    ∀ seen, firstRepeated? seen names = some k ↔ ∃ before after, names = before ++ k :: after ∧
      firstRepeated? seen before = none ∧ (k ∈ before ∨ k ∈ seen) := by
  induction names with
  | nil =>
    intro seen
    exact iff_of_false nofun fun ⟨before, after, h, _⟩ => by cases before <;> cases h
  | cons s names ih =>
    intro seen
    rw [firstRepeated?]
    split
    · rename_i hs
      constructor
      · rintro ⟨⟩
        exact ⟨[], names, rfl, rfl, .inr hs⟩
      · rintro ⟨before, after, h, hnone, -⟩
        cases before with
        | nil => cases h; rfl
        | cons b before =>
          cases h
          rw [firstRepeated?, if_pos hs] at hnone
          cases hnone
    · rename_i hs
      have hmoves (before : List String) :
          (k ∈ before ∨ k ∈ s :: seen) ↔ (k ∈ s :: before ∨ k ∈ seen) := by
        rw [List.mem_cons, List.mem_cons, or_left_comm, or_assoc]
      rw [ih]
      constructor
      · rintro ⟨before, after, rfl, hnone, hk⟩
        refine ⟨s :: before, after, rfl, ?_, (hmoves before).1 hk⟩
        rw [firstRepeated?, if_neg hs, hnone]
      · rintro ⟨before, after, h, hnone, hk⟩
        cases before with
        | nil =>
          cases h
          exact absurd hk (not_or.2 ⟨List.not_mem_nil, hs⟩)
        | cons b before =>
          cases h
          rw [firstRepeated?, if_neg hs] at hnone
          exact ⟨before, after, rfl, hnone, (hmoves before).2 hk⟩

namespace Method

theorem checkBindings_eq_ok_iff {m : Method} : m.checkBindings = .ok () ↔ m.bindingNames.Nodup := by
  have hiff := firstRepeated?_eq_none_iff m.bindingNames []
  unfold checkBindings
  cases hfirst : firstRepeated? [] m.bindingNames with
  | some k =>
    rw [hfirst] at hiff
    exact ⟨nofun, fun h => absurd (hiff.2 ⟨h, fun _ _ => List.not_mem_nil⟩) (Option.some_ne_none k)⟩
  | none => exact ⟨fun _ => (hiff.1 hfirst).1, fun _ => rfl⟩

/-- Two parameters have the same name. -/
def SharesName (m : Method) : Prop :=
  ∃ (i j : Nat) (k : String), i < j ∧ m.parameters[i]? = some (some k) ∧ m.parameters[j]? = some (some k)

/-- Of the parameters that have the name of one before them the first has this name. -/
def RepeatsFirst (m : Method) (k : String) : Prop :=
  ∃ before after, m.parameters = before ++ some k :: after ∧ some k ∈ before ∧
    (before.filterMap id).Nodup

theorem not_sharesName_iff {m : Method} : ¬m.SharesName ↔ m.bindingNames.Nodup := by
  rw [bindingNames, List.Nodup, List.pairwise_filterMap, List.pairwise_iff_getElem]
  constructor
  · rintro h i j hi hj hij k hk k' hk' rfl
    exact h ⟨i, j, k, hij, List.getElem?_eq_some_iff.2 ⟨hi, hk⟩, List.getElem?_eq_some_iff.2 ⟨hj, hk'⟩⟩
  · rintro h ⟨i, j, k, hij, hk, hk'⟩
    obtain ⟨hi, hk⟩ := List.getElem?_eq_some_iff.1 hk
    obtain ⟨hj, hk'⟩ := List.getElem?_eq_some_iff.1 hk'
    exact h i j hi hj hij k hk k hk' rfl

theorem firstRepeated?_bindingNames_iff {m : Method} {k : String} :
    firstRepeated? [] m.bindingNames = some k ↔ m.RepeatsFirst k := by
  have hnames (before : List (Option String)) : k ∈ before.filterMap id ↔ some k ∈ before := by
    simp [List.mem_filterMap]
  have hnone (names : List String) : firstRepeated? [] names = none ↔ names.Nodup := by
    rw [firstRepeated?_eq_none_iff]
    exact and_iff_left fun _ _ => List.not_mem_nil
  rw [firstRepeated?_eq_some_iff, bindingNames]
  constructor
  · rintro ⟨before, after, heq, hbefore, hk⟩
    obtain ⟨before, rest, hparameters, rfl, hrest⟩ := List.filterMap_eq_append_iff.1 heq
    obtain ⟨unnamed, name, after, rfl, hunnamed, hname, -⟩ := List.filterMap_eq_cons_iff.1 hrest
    cases hname
    refine ⟨before ++ unnamed, after, ?_, ?_, ?_⟩
    · rw [hparameters, List.append_assoc]
    · exact List.mem_append_left _ ((hnames before).1 (hk.resolve_right List.not_mem_nil))
    · rw [List.filterMap_append, List.filterMap_eq_nil_iff.2 hunnamed, List.append_nil]
      exact (hnone _).1 hbefore
  · rintro ⟨before, after, hparameters, hk, hnodup⟩
    refine ⟨before.filterMap id, after.filterMap id, ?_, (hnone _).2 hnodup, .inl ((hnames before).2 hk)⟩
    rw [hparameters, List.filterMap_append]
    rfl

/-- There is a first repetition if there is any. -/
theorem sharesName_iff {m : Method} : m.SharesName ↔ ∃ k, m.RepeatsFirst k := by
  rw [← not_iff_not, not_sharesName_iff, ← checkBindings_eq_ok_iff, checkBindings]
  simp only [← firstRepeated?_bindingNames_iff]
  cases firstRepeated? [] m.bindingNames <;> simp

/-! ## Bindings -/

/-- The entries are the named parameters with the arguments at their positions. -/
inductive Binds : List (Option String) → List Value → Entries Value → Prop
  | nil : Binds [] [] []
  | named {parameters : List (Option String)} {args : List Value} {entries : Entries Value}
      (k : String) (v : Value) (h : Binds parameters args entries) :
      Binds (some k :: parameters) (v :: args) ((k, v) :: entries)
  | unnamed {parameters : List (Option String)} {args : List Value} {entries : Entries Value}
      (v : Value) (h : Binds parameters args entries) : Binds (none :: parameters) (v :: args) entries

theorem Binds.length_eq {parameters : List (Option String)} {args : List Value}
    {entries : Entries Value} (h : Binds parameters args entries) :
    args.length = parameters.length := by
  induction h with
  | nil => rfl
  | named k v _ ih => exact congrArg (· + 1) ih
  | unnamed v _ ih => exact congrArg (· + 1) ih

theorem binds_zip {parameters : List (Option String)} {args : List Value}
    (h : args.length = parameters.length) :
    Binds parameters args ((parameters.zip args).filterMap fun (name, arg) => name.map (·, arg)) := by
  induction parameters generalizing args with
  | nil =>
    cases List.length_eq_zero_iff.1 h
    exact .nil
  | cons name parameters ih =>
    rcases args with _ | ⟨v, args⟩
    · cases h
    · have hrest := ih (Nat.succ.inj h)
      cases name with
      | none => exact .unnamed v hrest
      | some k => exact .named k v hrest

theorem Binds.eq_zip {parameters : List (Option String)} {args : List Value}
    {entries : Entries Value} (h : Binds parameters args entries) :
    entries = (parameters.zip args).filterMap fun (name, arg) => name.map (·, arg) := by
  induction h with
  | nil => rfl
  | named k v _ ih => rw [ih]; rfl
  | unnamed v _ ih => rw [ih]; rfl

theorem bind_eq_ok_iff {m : Method} {args : List Value} {entries : Entries Value} :
    m.bind args = .ok entries ↔ m.bindingNames.Nodup ∧ Binds m.parameters args entries := by
  rw [← checkBindings_eq_ok_iff]
  unfold Method.bind
  cases hnames : m.checkBindings with
  | error e => exact ⟨nofun, fun h => by cases h.1⟩
  | ok u =>
    by_cases hlength : args.length = m.parameters.length
    · simp only [hlength, ne_eq, not_true_eq_false, if_false]
      constructor
      · intro h
        cases h
        exact ⟨trivial, binds_zip hlength⟩
      · rintro ⟨-, hbinds⟩
        rw [hbinds.eq_zip]
        rfl
    · simp only [hlength, ne_eq, not_false_eq_true, if_true]
      exact ⟨nofun, fun h => absurd h.2.length_eq hlength⟩

/-! ## Outcomes -/

section

variable {m : Method} {args : List Value}

theorem bind_of_repeatsFirst {k : String} (h : m.RepeatsFirst k) :
    m.bind args = .error (.declaration (.duplicateBinding m.name k)) := by
  unfold Method.bind
  rw [checkBindings, firstRepeated?_bindingNames_iff.2 h]
  rfl

theorem bind_of_length_ne (h : ¬m.SharesName) (hlength : args.length ≠ m.parameters.length) :
    m.bind args = .error (.binding (.argumentCount m.parameters.length args.length)) := by
  unfold Method.bind
  rw [checkBindings_eq_ok_iff.2 (not_sharesName_iff.1 h)]
  exact if_pos hlength

variable {entries : Entries Value}

theorem Binds.keys_eq {parameters : List (Option String)} (h : Binds parameters args entries) :
    entries.keys = parameters.filterMap id := by
  induction h with
  | nil => rfl
  | named k v _ ih => exact congrArg (k :: ·) ih
  | unnamed v _ ih => exact ih

theorem Binds.mem {parameters : List (Option String)} (h : Binds parameters args entries) {i : Nat}
    {k : String} {v : Value} (hk : parameters[i]? = some (some k)) (hv : args[i]? = some v) :
    (k, v) ∈ entries := by
  induction h generalizing i with
  | nil => cases hk
  | named k' v' _ ih =>
    cases i with
    | zero =>
      cases hk
      cases hv
      exact List.mem_cons_self
    | succ i => exact List.mem_cons_of_mem _ (ih hk hv)
  | unnamed v' _ ih =>
    cases i with
    | zero => cases hk
    | succ i => exact ih hk hv

/-- The arguments as a map from the names of the parameters. -/
structure Bound (m : Method) (args : List Value) (entries : Entries Value) : Prop where
  binds : Binds m.parameters args entries
  /-- Inserting the named arguments one after the other makes this map, so none is overwritten. -/
  inserted : Entries.ofList ((m.parameters.zip args).filterMap fun (name, arg) => name.map (·, arg)) =
    entries
  own : ∀ (i : Nat) k v, m.parameters[i]? = some (some k) → args[i]? = some v →
    entries.lookup k = some v
  other : ∀ k, some k ∉ m.parameters → entries.lookup k = none
  length_eq : entries.length = m.parameters.countP Option.isSome

theorem Binds.bound (h : Binds m.parameters args entries) (hnames : m.bindingNames.Nodup) :
    m.Bound args entries := by
  have hkeys : entries.keys = m.bindingNames := h.keys_eq
  have hnodup : entries.keys.Nodup := by rwa [hkeys]
  refine ⟨h, ?_, fun i k v hk hv => Entries.lookup_of_mem hnodup (h.mem hk hv), fun k hk => ?_, ?_⟩
  · rw [← h.eq_zip]
    exact Entries.ofList_of_nodup hnodup
  · rw [Entries.lookup_eq_none_iff, hkeys, bindingNames, List.mem_filterMap]
    rintro ⟨_, hmem, rfl⟩
    exact hk hmem
  · rw [← List.length_map Prod.fst, ← List.length_filterMap_eq_countP]
    exact congrArg List.length hkeys

/-- Binding is refused for the first name that repeats, if two parameters have the same name, however many
arguments there are. Otherwise it is refused for their number, if that is not the number of parameters, and
if it is, every named parameter is bound to the argument at its own position. -/
theorem outcome_bind (m : Method) (args : List Value) :
    (∀ k, m.bind args = .error (.declaration (.duplicateBinding m.name k)) ↔ m.RepeatsFirst k) ∧
      (m.SharesName ↔ ∃ k, m.RepeatsFirst k) ∧
      (m.bind args = .error (.binding (.argumentCount m.parameters.length args.length)) ↔
        ¬m.SharesName ∧ args.length ≠ m.parameters.length) ∧
      (¬m.SharesName → args.length = m.parameters.length →
        ∃ entries, m.bind args = .ok entries ∧ m.Bound args entries) := by
  have hbinds (h : ¬m.SharesName) (hlength : args.length = m.parameters.length) :
      ∃ entries, m.bind args = .ok entries ∧ m.Bound args entries := by
    have hnames := not_sharesName_iff.1 h
    have hzip := binds_zip hlength
    exact ⟨_, bind_eq_ok_iff.2 ⟨hnames, hzip⟩, hzip.bound hnames⟩
  refine ⟨fun k => ⟨fun h => ?first, bind_of_repeatsFirst⟩, sharesName_iff,
    ⟨fun h => ?count, fun h => bind_of_length_ne h.1 h.2⟩, hbinds⟩
  case first =>
    by_cases hshares : m.SharesName
    · obtain ⟨k', hk'⟩ := sharesName_iff.1 hshares
      cases h.symm.trans (bind_of_repeatsFirst hk')
      exact hk'
    · by_cases hlength : args.length = m.parameters.length
      · obtain ⟨entries, hentries, -⟩ := hbinds hshares hlength
        cases h.symm.trans hentries
      · cases h.symm.trans (bind_of_length_ne hshares hlength)
  case count =>
    have hshares : ¬m.SharesName := by
      intro hshares
      obtain ⟨k, hk⟩ := sharesName_iff.1 hshares
      cases h.symm.trans (bind_of_repeatsFirst hk)
    refine ⟨hshares, fun hlength => ?_⟩
    obtain ⟨entries, hentries, -⟩ := hbinds hshares hlength
    cases h.symm.trans hentries

/-- Parameters with and without a name, in turn. -/
def inTurn (names : List String) : Method where
  name := "findPeople"
  parameters := names.flatMap fun k => [some k, none]
  returns := .orderedList

/-- Of two names that repeat, the one that does so first is told, also if no arguments came; parameters
without a name still take their places. -/
theorem outcome_bind_inTurn :
    (inTurn ["name", "age", "age", "name"]).bind [] =
        .error (.declaration (.duplicateBinding "findPeople" "age")) ∧
      (inTurn ["name", "age"]).bind [.null] = .error (.binding (.argumentCount 4 1)) ∧
      ∃ entries, (inTurn ["name", "age"]).bind [.str "Ada", .null, .int 36, .null] = .ok entries ∧
        entries.lookup "age" = some (.int 36) ∧ entries.lookup "city" = none ∧ entries.length = 2 := by
  have hdistinct : ¬(inTurn ["name", "age"]).SharesName := not_sharesName_iff.2 (by decide)
  refine ⟨?_, ?_, ?_⟩
  · have hfirst : (inTurn ["name", "age", "age", "name"]).RepeatsFirst "age" :=
      ⟨[some "name", none, some "age", none], [none, some "name", none], rfl, by decide, by decide⟩
    exact ((outcome_bind _ []).1 "age").2 hfirst
  · exact (outcome_bind (inTurn ["name", "age"]) [.null]).2.2.1.2 ⟨hdistinct, nofun⟩
  · obtain ⟨entries, hentries, hbound⟩ := (outcome_bind (inTurn ["name", "age"])
      [.str "Ada", .null, .int 36, .null]).2.2.2 hdistinct rfl
    exact ⟨entries, hentries, hbound.own 2 "age" _ rfl rfl, hbound.other "city" (by decide),
      hbound.length_eq⟩

end

end Method

end QueryMethods
