/-
What an invocation asks the store. A refusal comes before the store is asked: it is a failure of the
declaration, of the binding of arguments or of the condition. An invocation that is not refused makes
one request, and which one follows from the method, its arguments and the settings; whatever comes
after it is a failure of the store, a failure of shaping or the shaped result.
-/
import QueryMethods.Proofs.Invocation.Refusal
import QueryMethods.Proofs.Method.Binding
import QueryMethods.Proofs.Method.Origin
import QueryMethods.Proofs.Result.Views

namespace QueryMethods

/-- A failure that comes before the store is asked. -/
def Failure.IsRefusal : Failure → Prop
  | .declaration _ | .binding _ | .condition _ => True
  | .result _ | .store _ _ => False

/-! ## Requests -/

theorem Name.Plan.isRefusal_instantiate {p : Name.Plan} {args : List Value} {e : Failure}
    (h : p.instantiate args = .error e) : e.IsRefusal := by
  unfold instantiate at h
  split at h
  · split at h <;> cases h
    trivial
  · cases h
    trivial

theorem Method.isRefusal_bind {m : Method} {args : List Value} {e : Failure}
    (h : m.bind args = .error e) : e.IsRefusal := by
  unfold Method.bind at h
  cases hnames : m.checkBindings with
  | error e' =>
    rw [hnames] at h
    cases h
    trivial
  | ok u =>
    rw [hnames] at h
    by_cases hlength : args.length = m.parameters.length
    · simp only [hlength, ne_eq, not_true_eq_false, if_false] at h
      cases h
    · simp only [hlength, ne_eq, not_false_eq_true, if_true] at h
      cases h
      trivial

namespace Settings

variable {s : Settings} {m : Method} {args : List Value}

/-- The request that a method makes of its arguments once everything is checked. -/
inductive Asks (s : Settings) (m : Method) : List Value → Request → Prop
  /-- A primitive without arguments. -/
  | nullary {op : Primitive} (ho : m.HasOrigin (.builtin op)) (hn : op.arity = 0) :
      Asks s m [] (.primitive op none)
  | unary {op : Primitive} {v : Value} (ho : m.HasOrigin (.builtin op)) (hn : op.arity = 1) :
      Asks s m [v] (.primitive op (some v))
  /-- A query text with all arguments by position. -/
  | positional {query : String} {args : List Value} (ho : m.HasOrigin (.literal query))
      (hd : s.dialect.isPositional = true) (hn : m.bindingNames.Nodup)
      (hl : args.length = m.parameters.length) :
      Asks s m args (.literal s.dialect query (.positional args))
  /-- A query text with the arguments of the named parameters. -/
  | named {query : String} {args : List Value} {entries : Entries Value}
      (ho : m.HasOrigin (.literal query)) (hd : s.dialect.isPositional = false)
      (hn : m.bindingNames.Nodup) (hb : Method.Binds m.parameters args entries) :
      Asks s m args (.literal s.dialect query (.named entries))
  /-- The filter of the condition that the name makes of the arguments. -/
  | filter {plan : Name.Plan} {args : List Value} {c : Condition} {f : Filter}
      (ho : m.HasOrigin (.derived plan)) (hc : plan.instantiate args = .ok c)
      (hf : c.toFilter s.dialect m.projection = .ok f) : Asks s m args (.filter s.dialect f)

theorem asks_of_prepare {p : Prepared} (h : s.prepare m args = .ok p) : s.Asks m args p.request := by
  unfold prepare at h
  cases horigin : m.origin with
  | error e => rw [horigin] at h; cases h
  | ok o =>
    rw [horigin] at h
    have ho := Method.origin_eq_ok_iff.1 horigin
    cases o with
    | builtin op =>
      simp only [prepareBuiltin] at h
      split at h <;> cases h
      rename_i hlength
      -- No primitive takes more than one argument.
      rcases args with _ | ⟨v, _ | ⟨w, args⟩⟩
      · exact .nullary ho hlength.symm
      · exact .unary ho hlength.symm
      · have harity : op.arity ≤ 1 := by cases op <;> decide
        simp only [List.length_cons] at hlength
        omega
    | literal query =>
      obtain ⟨entries, hbind, h⟩ := ok_of_bind h
      cases h
      obtain ⟨hnodup, hbinds⟩ := Method.bind_eq_ok_iff.1 hbind
      dsimp only
      split
      · rename_i hd
        exact .positional ho hd hnodup hbinds.length_eq
      · rename_i hd
        exact .named ho (by simpa using hd) hnodup hbinds
    | derived plan =>
      obtain ⟨c, hc, h⟩ := ok_of_bind h
      split at h
      · cases h
      · rename_i f hf
        cases h
        exact .filter ho hc hf

theorem prepare_of_asks {request : Request} (h : s.Asks m args request) :
    ∃ context, s.prepare m args = .ok ⟨request, context⟩ := by
  cases h with
  | @nullary op ho hn =>
    refine ⟨.ofQuery s.dialect false op.name, ?_⟩
    simp only [prepare, Method.origin_eq_ok_iff.2 ho, prepareBuiltin, hn, List.length_nil, if_true]
    rfl
  | @unary op v ho hn =>
    refine ⟨.ofQuery s.dialect false op.name, ?_⟩
    simp only [prepare, Method.origin_eq_ok_iff.2 ho, prepareBuiltin, hn, List.length_singleton, if_true]
    rfl
  | @positional query args ho hd hn hl =>
    refine ⟨.ofQuery s.dialect s.redactLiterals query, ?_⟩
    have hbind := Method.bind_eq_ok_iff.2 ⟨hn, Method.binds_zip hl⟩
    simp only [prepare, Method.origin_eq_ok_iff.2 ho, prepareLiteral, hbind, hd]
    rfl
  | @named query args entries ho hd hn hb =>
    refine ⟨.ofQuery s.dialect s.redactLiterals query, ?_⟩
    have hbind := Method.bind_eq_ok_iff.2 ⟨hn, hb⟩
    simp only [prepare, Method.origin_eq_ok_iff.2 ho, prepareLiteral, hbind, hd]
    rfl
  | @filter plan args c f ho hc hf =>
    refine ⟨.ofQuery s.dialect s.redactLiterals f.queryText, ?_⟩
    simp only [prepare, Method.origin_eq_ok_iff.2 ho, prepareDerived, hc]
    dsimp only [bind, Except.bind]
    rw [hf]
    rfl

/-- A method makes one request at most. -/
theorem Asks.unique {request request' : Request} (h : s.Asks m args request)
    (h' : s.Asks m args request') : request = request' := by
  obtain ⟨context, hok⟩ := prepare_of_asks h
  obtain ⟨context', hok'⟩ := prepare_of_asks h'
  rw [hok] at hok'
  cases hok'
  rfl

theorem isRefusal_prepare {e : Failure} (h : s.prepare m args = .error e) : e.IsRefusal := by
  unfold prepare at h
  split at h
  · cases h
    trivial
  · rename_i op _
    unfold prepareBuiltin at h
    split at h <;> cases h
    trivial
  · rename_i query _
    unfold prepareLiteral at h
    cases hbind : m.bind args with
    | error e' =>
      rw [hbind] at h
      cases h
      exact Method.isRefusal_bind hbind
    | ok entries => rw [hbind] at h; cases h
  · rename_i plan _
    unfold prepareDerived at h
    cases hc : plan.instantiate args with
    | error e' =>
      rw [hc] at h
      cases h
      exact Name.Plan.isRefusal_instantiate hc
    | ok c =>
      rw [hc] at h
      dsimp only [bind, Except.bind] at h
      split at h <;> cases h
      trivial

end Settings

/-! ## Answers -/

namespace Rows

variable {α : Type} {e : Failure}

theorem not_isRefusal_whole {β : Type} {f : List α → β} {context : QueryContext}
    {results : List (Except StoreError α)} (h : f <$> whole context results = .error e) :
    ¬ e.IsRefusal := by
  rcases whole_cases context results with ⟨rows, -, hw⟩ | ⟨rows, e', rest, -, hw⟩ <;>
    rw [hw] at h <;> cases h
  exact id

theorem not_isRefusal_read [BEq α] {shape : ReturnShape} {r : Rows α}
    (h : (shape.read r).1 = .error e) : ¬ e.IsRefusal := by
  cases shape with
  | lazySequence | nothing => cases h
  | existence =>
    rw [ReturnShape.read_existence] at h
    split at h <;> cases h
    exact id
  | single =>
    rw [ReturnShape.read_single] at h
    split at h <;> cases h <;> exact id
  | nullableSingle =>
    rw [ReturnShape.read_nullableSingle] at h
    split at h <;> cases h <;> exact id
  | orderedList =>
    rw [ReturnShape.read_orderedList] at h
    exact not_isRefusal_whole h
  | uniqueSet =>
    rw [ReturnShape.read_uniqueSet] at h
    exact not_isRefusal_whole h
  | count =>
    rw [ReturnShape.read_count] at h
    exact not_isRefusal_whole h

end Rows

/-- Shaping fails with a failure of a row or of the shape. -/
theorem ReturnShape.not_isRefusal_ofReply {α : Type} [BEq α] {shape : ReturnShape} {reply : Reply α}
    {context : QueryContext} {e : Failure} (h : (shape.ofReply reply context).result = .error e) :
    ¬ e.IsRefusal := by
  cases reply with
  | rows cursor => exact Rows.not_isRefusal_read h
  | done => exact Rows.not_isRefusal_read (r := .empty context) h
  | count n =>
    cases shape <;> cases h <;> exact id

/-! ## Invocations -/

namespace Invocation

variable {α : Type} [BEq α] {store : Store α} {earlier : List Request} {shape : ReturnShape}
  {p : Prepared}

theorem requests_ask : (ask store earlier shape p).requests = [p.request] := by
  unfold ask
  split <;> rfl

theorem not_isRefusal_ask {e : Failure} (h : (ask store earlier shape p).result = .error e) :
    ¬ e.IsRefusal := by
  unfold ask at h
  split at h
  · cases h
    exact id
  · exact ReturnShape.not_isRefusal_ofReply h

/-- Of a store only its answer to the one request counts. -/
theorem ask_congr {store' : Store α} (h : store' earlier p.request = store earlier p.request) :
    ask store' earlier shape p = ask store earlier shape p := by
  unfold ask
  rw [h]

end Invocation

/-- The requests of an invocation, for any settings, any method, any arguments and any store. No
request is made exactly if the invocation is refused. Otherwise one is made: exactly the one that the
method asks of its arguments, if there is one, and there is none if it is refused. Then the result is
a failure of the store for that request, or the answer in the declared shape, so that it is no refusal,
and nothing else about the store has an influence on the invocation. -/
theorem Settings.requests_invoke {α : Type} [BEq α] (s : Settings) (store : Store α)
    (earlier : List Request) (m : Method) (args : List Value) :
    let i := s.invoke store earlier m args
    (i.requests = [] ↔ ∃ e, i.result = .error e ∧ e.IsRefusal) ∧
      (i.requests = [] ∨ ∃ request, i.requests = [request] ∧
        ((∃ context e, store earlier request = .error e ∧ i.result = .error (.store context e)) ∨
          ∃ context reply, store earlier request = .ok reply ∧
            i.result = (m.returns.ofReply reply context).result) ∧
        ∀ e, i.result = .error e → (∃ r, e = .result r) ∨ ∃ context b, e = .store context b) ∧
      (∀ request, i.requests = [request] ↔ s.Asks m args request) ∧
      ∀ store' : Store α, (∀ request ∈ i.requests, store' earlier request = store earlier request) →
        s.invoke store' earlier m args = i := by
  intro i
  cases hprepare : s.prepare m args with
  | error e =>
    have hi : i = .refused e := by
      show s.invoke store earlier m args = _
      rw [invoke, hprepare]
    have hasks : ∀ request, ¬ s.Asks m args request := by
      intro request h
      obtain ⟨context, hok⟩ := prepare_of_asks h
      rw [hprepare] at hok
      cases hok
    rw [hi]
    refine ⟨⟨fun _ => ⟨e, rfl, isRefusal_prepare hprepare⟩, fun _ => rfl⟩, .inl rfl,
      fun request => ?_, fun store' _ => ?_⟩
    · exact iff_of_false (List.cons_ne_nil request []).symm (hasks request)
    · rw [invoke, hprepare]
  | ok p =>
    have hi : i = .ask store earlier m.returns p := by
      show s.invoke store earlier m args = _
      rw [invoke, hprepare]
    have hrequests : i.requests = [p.request] := by rw [hi]; exact Invocation.requests_ask
    have hlate : ∀ e, i.result = .error e → ¬ e.IsRefusal := by
      rw [hi]
      exact fun e => Invocation.not_isRefusal_ask
    refine ⟨?_, .inr ⟨p.request, hrequests, ?_, ?_⟩, fun request => ?_, fun store' hsame => ?_⟩
    · rw [hrequests]
      refine iff_of_false (List.cons_ne_nil _ _) ?_
      rintro ⟨e, he, hrefusal⟩
      exact hlate e he hrefusal
    · rw [hi]
      unfold Invocation.ask
      split
      · rename_i e he
        exact .inl ⟨p.context, e, he, rfl⟩
      · rename_i reply hr
        exact .inr ⟨p.context, reply, hr, rfl⟩
    · intro e he
      have hnot := hlate e he
      cases e with
      | result r => exact .inl ⟨r, rfl⟩
      | store context b => exact .inr ⟨context, b, rfl⟩
      | declaration _ | binding _ | condition _ => exact absurd trivial hnot
    · rw [hrequests]
      constructor
      · intro h
        cases h
        exact asks_of_prepare hprepare
      · intro h
        rw [(asks_of_prepare hprepare).unique h]
    · have hanswer : store' earlier p.request = store earlier p.request :=
        hsame _ (by rw [hrequests]; exact List.mem_singleton_self _)
      rw [invoke, hprepare, hi]
      exact Invocation.ask_congr hanswer

/-- A primitive by its other name, a query text under the name of a primitive with fewer parameters, and a
derived query with its argument and without. -/
theorem Settings.requests_origins :
    let requests (m : Method) (args : List Value) : List Request :=
      (Settings.invoke {} (fun _ _ => .ok .done : Store Nat) [] m args).requests
    let byAge : Method := { name := "findByAge", returns := .orderedList }
    requests { name := "find_by_id", parameters := [none], returns := .single } [.int 7] =
        [.primitive .findById (some (.int 7))] ∧
      requests
          { name := "findById", parameters := [some "id", none], returns := .single,
            query := some "e.id = @id" } [.int 7, .str "a"] =
        [.literal .atNamed "e.id = @id" (.named [("id", .int 7)])] ∧
      requests byAge [.int 36] =
        [.filter .atNamed (.text "e.age == @age" (.named [("age", .int 36)]))] ∧
      requests byAge [] = [] := by
  intro requests byAge
  have hrequests (m : Method) (args : List Value) (request : Request) :
      requests m args = [request] ↔ Asks {} m args request :=
    (Settings.requests_invoke {} (fun _ _ => .ok .done : Store Nat) [] m args).2.2.1 request
  have horigin : byAge.HasOrigin (.derived ⟨.find, [[⟨"age", .equal⟩]]⟩) :=
    Method.origin_eq_ok_iff.1 (by decide +kernel)
  have hfilter : (Condition.compare "age" .equal (.int 36)).toFilter .atNamed [] =
      .ok (.text "e.age == @age" (.named [("age", .int 36)])) := rfl
  have hmissing : (Settings.invoke {} (fun _ _ => .ok .done : Store Nat) [] byAge []).result =
      .error (.binding (.argumentCount 1 0)) := by
    simp only [invoke, prepare, Method.origin_eq_ok_iff.2 horigin]
    rfl
  exact ⟨(hrequests _ _ _).2 (.unary (Method.origin_eq_ok_iff.1 (by decide +kernel)) rfl),
    (hrequests _ _ _).2 (.named (Method.origin_eq_ok_iff.1 (by decide +kernel)) rfl (by decide)
      (.named "id" (.int 7) (.unnamed (.str "a") .nil))),
    (hrequests _ _ _).2 (.filter horigin rfl hfilter),
    (Settings.requests_invoke _ _ _ _ _).1.2 ⟨_, hmissing, trivial⟩⟩

end QueryMethods
