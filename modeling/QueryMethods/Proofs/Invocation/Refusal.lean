/-
Refusals: invocations that fail for the declaration of their method, before the store is asked. Every
invocation finds out anew where its query comes from, so a method without a query is refused each
time. The binding names are looked at only where arguments are bound to them, which is for query texts;
to any other method it makes no difference how its parameters are called, even if validation rejects
it for that.
-/
import QueryMethods.Invocation
import QueryMethods.Proofs.Outcome

namespace QueryMethods

/-! ## Validation -/

namespace Method

variable {m : Method} {e : DeclarationError}

theorem validate_of_checkBindings (h : m.checkBindings = .error e) : m.validate = .error e := by
  rw [validate, h]
  rfl

/-- A method without a query is rejected, if not for its binding names. -/
theorem validate_of_origin (h : m.origin = .error e) : ∃ e, m.validate = .error e := by
  cases hnames : m.checkBindings with
  | error e => exact ⟨e, validate_of_checkBindings hnames⟩
  | ok u => exact ⟨e, by rw [validate, hnames, h]; rfl⟩

/-- What is wrong with a method that has a query are its binding names. -/
theorem checkBindings_of_validate {o : Origin} (ho : m.origin = .ok o) (h : m.validate = .error e) :
    m.checkBindings = .error e := by
  rw [validate, ho] at h
  cases hnames : m.checkBindings with
  | error e' => rw [hnames] at h; exact h
  | ok u => rw [hnames] at h; cases h

theorem bind_of_checkBindings (h : m.checkBindings = .error e) (args : List Value) :
    m.bind args = .error (.declaration e) := by
  rw [bind, h]
  rfl

theorem checkBindings_of_bind {args : List Value} (h : m.bind args = .error (.declaration e)) :
    m.checkBindings = .error e := by
  cases hnames : m.checkBindings with
  | error e' =>
    rw [bind_of_checkBindings hnames] at h
    cases h
    rfl
  | ok u =>
    rw [bind, hnames] at h
    by_cases hlength : args.length = m.parameters.length
    · simp only [hlength, ne_eq, not_true_eq_false, if_false] at h
      cases h
    · simp only [hlength, ne_eq, not_false_eq_true, if_true] at h
      cases h

/-- The method with its parameters left without names. -/
def unnamed (m : Method) : Method :=
  { m with parameters := m.parameters.map fun _ => none }

theorem length_unnamed (m : Method) : m.unnamed.parameters.length = m.parameters.length :=
  List.length_map _

theorem origin_unnamed (m : Method) : m.unnamed.origin = m.origin := by
  have hprimitive : m.unnamed.primitive? = m.primitive? := by
    simp only [primitive?, length_unnamed]
    rfl
  rw [origin, origin, hprimitive]
  rfl

end Method

/-! ## Requests -/

theorem Name.Plan.instantiate_ne_declaration (p : Name.Plan) (args : List Value)
    (e : DeclarationError) : p.instantiate args ≠ .error (.declaration e) := by
  unfold instantiate
  split
  · split <;> exact nofun
  · exact nofun

namespace Settings

variable {s : Settings} {m : Method} {args : List Value} {e : DeclarationError}

theorem prepareBuiltin_ne_declaration (op : Primitive) :
    s.prepareBuiltin op args ≠ .error (.declaration e) := by
  unfold prepareBuiltin
  split <;> exact nofun

theorem prepareDerived_ne_declaration (plan : Name.Plan) :
    s.prepareDerived m plan args ≠ .error (.declaration e) := by
  intro h
  unfold prepareDerived at h
  cases hcondition : plan.instantiate args with
  | error e' =>
    rw [hcondition] at h
    cases h
    exact plan.instantiate_ne_declaration args e hcondition
  | ok c =>
    rw [hcondition] at h
    dsimp only [bind, Except.bind] at h
    split at h <;> cases h

theorem prepareLiteral_eq_declaration_iff (query : String) :
    s.prepareLiteral m query args = .error (.declaration e) ↔ m.checkBindings = .error e := by
  unfold prepareLiteral
  constructor
  · intro h
    cases hbind : m.bind args with
    | error e' =>
      rw [hbind] at h
      cases h
      exact Method.checkBindings_of_bind hbind
    | ok bindings => rw [hbind] at h; cases h
  · intro h
    rw [Method.bind_of_checkBindings h]
    rfl

/-- Preparing a request fails for the declaration if there is no query, or if there is a query text
and the binding names repeat. -/
theorem prepare_eq_declaration_iff :
    s.prepare m args = .error (.declaration e) ↔
      m.origin = .error e ∨
        (∃ query, m.origin = .ok (.literal query)) ∧ m.checkBindings = .error e := by
  unfold prepare
  cases m.origin with
  | error e' => simp
  | ok o =>
    cases o with
    | builtin op => simpa using prepareBuiltin_ne_declaration op
    | literal query => simpa using prepareLiteral_eq_declaration_iff query
    | derived plan => simpa using prepareDerived_ne_declaration plan

/-! ## Invocations -/

variable {α : Type} [BEq α] {store : Store α} {earlier : List Request}

/-- An invocation is refused for the declaration exactly if its request cannot be prepared for it; one
that asks the store is never refused. -/
theorem invoke_eq_refused_iff :
    s.invoke store earlier m args = .refused (.declaration e) ↔
      s.prepare m args = .error (.declaration e) := by
  unfold invoke
  cases hprepare : s.prepare m args with
  | error e' => simp [Invocation.refused]
  | ok p =>
    refine ⟨fun h => ?_, nofun⟩
    have hrequests := congrArg Invocation.requests h
    simp only [Invocation.ask, Invocation.refused] at hrequests
    split at hrequests <;> cases hrequests

/-- A method is refused for its declaration, whatever its arguments, exactly if validation rejects it
and it has no query or a query text. Otherwise the names of its parameters do not count. -/
theorem refused_invoke_iff (s : Settings) (store : Store α) (earlier : List Request) (m : Method)
    (args : List Value) :
    ((∃ e, s.invoke store earlier m args = .refused (.declaration e)) ↔
      (∃ e, m.validate = .error e) ∧ ∀ o, m.origin = .ok o → ∃ query, o = .literal query) ∧
    ((∀ query, m.origin ≠ .ok (.literal query)) →
      s.invoke store earlier m args = s.invoke store earlier m.unnamed args) := by
  constructor
  · simp only [invoke_eq_refused_iff, prepare_eq_declaration_iff]
    constructor
    · rintro ⟨e, horigin | ⟨⟨query, horigin⟩, hnames⟩⟩
      · exact ⟨Method.validate_of_origin horigin, fun o ho => by rw [horigin] at ho; cases ho⟩
      · refine ⟨⟨e, Method.validate_of_checkBindings hnames⟩, fun o ho => ⟨query, ?_⟩⟩
        rw [horigin] at ho
        cases ho
        rfl
    · rintro ⟨⟨e, hvalidate⟩, hliteral⟩
      cases horigin : m.origin with
      | error e' => exact ⟨e', .inl rfl⟩
      | ok o =>
        obtain ⟨query, rfl⟩ := hliteral o horigin
        exact ⟨e, .inr ⟨⟨query, rfl⟩, Method.checkBindings_of_validate horigin hvalidate⟩⟩
  · intro hliteral
    have hprepare : s.prepare m.unnamed args = s.prepare m args := by
      rw [prepare, prepare, Method.origin_unnamed]
      cases horigin : m.origin with
      | error e => rfl
      | ok o =>
        cases o with
        | builtin op => rfl
        | literal query => exact absurd horigin (hliteral query)
        | derived plan => rfl
    rw [invoke, invoke, hprepare]
    rfl

/-- A query by name whose parameters are bound to one name. -/
def clashing : Method where
  name := "findByNameAndAge"
  parameters := [some "x", some "x"]
  returns := .orderedList

/-- Validation rejects a method about which the store is asked nevertheless. -/
theorem invoke_clashing :
    clashing.validate = .error (.duplicateBinding "findByNameAndAge" "x") ∧
      (Settings.invoke (α := Unit) {} (fun _ _ => .ok .done) [] clashing
        [.str "Ada", .int 36]).requests.length = 1 := by
  constructor
  · decide +kernel
  · decide +kernel

end Settings

end QueryMethods
