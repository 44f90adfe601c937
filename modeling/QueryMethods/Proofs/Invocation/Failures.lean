/-
Failures of the store, from where the store reports them to where the caller is told. A store can fail
as soon as it is asked, or with any row that its cursor is asked for, which may be long after the
invocation: a lazy sequence carries its context along. Wherever a failure comes up, the caller is told
of it, with the context of the request, and of no other failure of the store.

The invariant is `Rows.Tells`: what the caller was told is what came from the cursor, and nothing while
the rows are open.
-/
import QueryMethods.Proofs.Invocation.Requests

namespace QueryMethods

variable {α : Type}

/-! ## What a store reports -/

/-- The failure that came in the place of a row. -/
def RowAnswer.failure? : RowAnswer α → Option StoreError
  | .failure e => some e
  | _ => none

/-- The answers that a cursor has given until only some are left. -/
def Cursor.given (start left : Cursor α) : List (RowAnswer α) :=
  start.script.take (start.script.length - left.script.length)

theorem Cursor.given_eq {start left : Cursor α} {answers : List (RowAnswer α)}
    (h : start.script = answers ++ left.script) : start.given left = answers := by
  rw [given, h, List.length_append, Nat.add_sub_cancel, List.take_left]

/-- The answer of a cursor is the next one in its script, or the end of it. -/
theorem Cursor.script_eq_next (c : Cursor α) :
    ∃ answers, c.script = answers ++ c.next.2.script ∧
      answers.filterMap RowAnswer.failure? = c.next.1.failure?.toList := by
  unfold next
  rcases c.script with _ | ⟨_ | _ | _, script⟩
  · exact ⟨[], rfl, rfl⟩
  · exact ⟨[_], rfl, rfl⟩
  · exact ⟨[_], rfl, rfl⟩
  · exact ⟨[_], rfl, rfl⟩

/-! ## What a caller is told -/

namespace Failure

/-- The failure of the store behind a failure, with its context. -/
def origin? : Failure → Option (QueryContext × StoreError)
  | .store context e => some (context, e)
  | _ => none

variable {β γ : Type}

/-- The failure of the store that an outcome tells of. -/
def told : Except Failure β → List (QueryContext × StoreError)
  | .error e => e.origin?.toList
  | .ok _ => []

@[simp] theorem told_ok (b : β) : told (.ok b) = [] := rfl

theorem told_map (f : β → γ) (x : Except Failure β) : told (f <$> x) = told x := by
  cases x <;> rfl

end Failure

/-- The failure of the store that an answer tells of. -/
def LazyAnswer.told : LazyAnswer α → List (QueryContext × StoreError)
  | .next result => Failure.told result
  | .isOpen _ => []

/-- The failures that a result tells of, or the answers of a lazy sequence to some calls. -/
def Shaped.told (result : Except Failure (Shaped α)) (cs : List LazyCall) :
    List (QueryContext × StoreError) :=
  match result with
  | .ok (.lazy r) => (r.calls cs).1.flatMap LazyAnswer.told
  | result => Failure.told result

namespace Rows

/-- What the caller was told, in one context, is what came from the cursor since the start: nothing while
the rows are open, and at most one failure. -/
structure Tells (start : Cursor α) (context : QueryContext) (r : Rows α)
    (told : List (QueryContext × StoreError)) : Prop where
  context_eq : r.context = context
  came : ∃ answers, start.script = answers ++ r.cursor.script ∧
    told = (answers.filterMap RowAnswer.failure?).map (context, ·)
  silent : r.isOpen = true → told = []
  once : told.length ≤ 1

variable {start : Cursor α} {context : QueryContext} {r : Rows α}
  {told : List (QueryContext × StoreError)}

theorem tells_ofCursor (start : Cursor α) (context : QueryContext) :
    Tells start context (ofCursor start context) [] :=
  ⟨rfl, ⟨[], rfl, rfl⟩, fun _ => rfl, Nat.zero_le _⟩

theorem tells_empty (context : QueryContext) : Tells (⟨[], []⟩ : Cursor α) context (empty context) [] :=
  ⟨rfl, ⟨[], rfl, rfl⟩, fun _ => rfl, Nat.zero_le _⟩

theorem Tells.told_eq (h : Tells start context r told) :
    told = ((start.given r.cursor).filterMap RowAnswer.failure?).map (context, ·) := by
  obtain ⟨answers, hanswers, htold⟩ := h.came
  rw [Cursor.given_eq hanswers, htold]

theorem Tells.close (h : Tells start context r told) : Tells start context r.close told := by
  unfold Rows.close
  split
  · exact ⟨h.context_eq, h.came, nofun, h.once⟩
  · exact h

/-- What open rows tell of is what their cursor answers, and they are closed by a failure. -/
theorem told_next (h : r.isOpen = true) :
    r.next.2.context = r.context ∧ r.next.2.cursor.script = r.cursor.next.2.script ∧
      Failure.told r.next.1 = r.cursor.next.1.failure?.toList.map (r.context, ·) ∧
      (r.next.2.isOpen = true → r.cursor.next.1.failure? = none) := by
  unfold Rows.next
  rw [if_pos h]
  rcases r.cursor.next with ⟨_ | _ | _, c⟩ <;> simp only [Rows.close, h, if_true]
  · exact ⟨trivial, trivial, rfl, fun _ => rfl⟩
  · refine ⟨trivial, rfl, rfl, fun hopen => ?_⟩
    cases hopen
  · refine ⟨trivial, rfl, rfl, fun hopen => ?_⟩
    cases hopen

/-- Asking for a row tells of the failure that comes, if one comes: closed rows ask their cursor for
nothing, and open ones told of nothing before. -/
theorem Tells.next (h : Tells start context r told) :
    Tells start context r.next.2 (told ++ Failure.told r.next.1) := by
  cases hr : r.isOpen with
  | false =>
    rw [next_closed hr, Failure.told_ok, List.append_nil]
    exact h
  | true =>
    obtain ⟨before, hbefore, htold⟩ := h.came
    obtain ⟨answers, hanswers, hfailures⟩ := r.cursor.script_eq_next
    obtain ⟨hcontext, hscript, hnext, hopen⟩ := told_next hr
    rw [h.silent hr] at htold ⊢
    rw [List.nil_append, hnext, h.context_eq]
    refine ⟨hcontext.trans h.context_eq, ⟨before ++ answers, ?_, ?_⟩, fun ho => ?_, ?_⟩
    · rw [hscript, hbefore, hanswers, List.append_assoc]
    · rw [List.filterMap_append, List.map_append, ← htold, hfailures, List.nil_append]
    · rw [hopen ho]
      rfl
    · rw [List.length_map]
      exact Option.length_toList_le

theorem Tells.collect (h : Tells start context r told) :
    Tells start context r.collect.2 (told ++ Failure.told r.collect.1) := by
  fun_induction Rows.collect r with
  | case1 r e hn =>
    have hnext := h.next
    rw [hn] at hnext
    exact hnext
  | case2 r hn =>
    have hnext := h.next
    rw [hn] at hnext
    exact hnext
  | case3 r a hn others ih =>
    have hnext := h.next
    rw [hn, Failure.told_ok, List.append_nil] at hnext
    rw [Failure.told_map]
    exact ih hnext

theorem Tells.atMostOne (h : Tells start context r told) :
    Tells start context r.atMostOne.2 (told ++ Failure.told r.atMostOne.1) := by
  have hnext := h.next
  unfold Rows.atMostOne
  split
  · rename_i a r' hn
    rw [hn, Failure.told_ok, List.append_nil] at hnext
    have hsecond := hnext.next
    -- Of the second row only a failure is told, whether the row is one too many or not.
    split <;> rename_i hn' <;> rw [hn'] at hsecond <;> exact hsecond
  · exact hnext

theorem Tells.read [BEq α] (shape : ReturnShape) (h : Tells start context r told) :
    Tells start context (shape.read r).2 (told ++ Failure.told (shape.read r).1) := by
  cases shape with
  | single =>
    have hread := h.atMostOne
    unfold ReturnShape.read
    rcases hr : r.atMostOne with ⟨_ | _ | _, left⟩ <;> rw [hr] at hread <;> exact hread
  | nullableSingle =>
    unfold ReturnShape.read
    rw [Failure.told_map]
    exact h.atMostOne
  | existence =>
    unfold ReturnShape.read
    rw [Failure.told_map]
    exact h.next
  | orderedList | uniqueSet | count =>
    unfold ReturnShape.read
    rw [Failure.told_map]
    exact h.collect
  | lazySequence | nothing =>
    rw [ReturnShape.read, Failure.told_ok, List.append_nil]
    exact h

theorem Tells.call (h : Tells start context r told) (c : LazyCall) :
    Tells start context (r.call c).2 (told ++ (r.call c).1.told) := by
  cases c with
  | next => exact h.next
  | isOpen =>
    rw [Rows.call, LazyAnswer.told, List.append_nil]
    exact h

theorem Tells.calls (cs : List LazyCall) :
    ∀ {r : Rows α} {told}, Tells start context r told →
      Tells start context (r.calls cs).2 (told ++ (r.calls cs).1.flatMap LazyAnswer.told) := by
  induction cs with
  | nil =>
    intro r told h
    rw [Rows.calls, List.flatMap_nil, List.append_nil]
    exact h
  | cons c cs ih =>
    intro r told h
    rw [Rows.calls, List.flatMap_cons, ← List.append_assoc]
    exact ih (h.call c)

end Rows

/-! ## Shapes -/

/-- The failures that came from the cursor of a reply, given the rows that are left of it. -/
def Reply.failures (reply : Reply α) (left : Rows α) : List StoreError :=
  match reply with
  | .rows cursor => (cursor.given left.cursor).filterMap RowAnswer.failure?
  | .count _ | .done => []

namespace ReturnShape

variable [BEq α]

theorem tells_ofRows {start : Cursor α} {context : QueryContext} {r : Rows α} (shape : ReturnShape)
    (h : r.Tells start context []) (cs : List LazyCall) :
    ((shape.ofRows r).settled cs).Tells start context (Shaped.told (shape.ofRows r).result cs) := by
  by_cases hs : shape = .lazySequence
  · subst hs
    rw [settled_lazySequence]
    exact (h.calls cs).close
  · rw [settled_ofRows hs]
    have hresult : Shaped.told (shape.ofRows r).result cs = Failure.told (shape.read r).1 := by
      unfold Shaped.told
      split
      · rename_i r' he
        exact absurd he (read_ne_lazy hs r r')
      · rfl
    rw [hresult]
    exact (h.read shape).close

/-- Whatever the shape, the caller is told of what came from the cursor, in the context of the reply. -/
theorem told_ofReply (shape : ReturnShape) (reply : Reply α) (context : QueryContext)
    (cs : List LazyCall) :
    let s := shape.ofReply reply context
    Shaped.told s.result cs = (reply.failures (s.settled cs)).map (context, ·) ∧
      (Shaped.told s.result cs).length ≤ 1 := by
  intro s
  cases reply with
  | rows cursor =>
    have htells : (s.settled cs).Tells cursor context (Shaped.told s.result cs) :=
      shape.tells_ofRows (Rows.tells_ofCursor cursor context) cs
    exact ⟨htells.told_eq, htells.once⟩
  | done =>
    have htells : (s.settled cs).Tells ⟨[], []⟩ context (Shaped.told s.result cs) :=
      shape.tells_ofRows (Rows.tells_empty context) cs
    have hnothing : Cursor.given ⟨[], []⟩ (s.settled cs).cursor = [] := List.take_nil
    exact ⟨by rw [htells.told_eq, hnothing]; rfl, htells.once⟩
  | count n =>
    have hnone : Shaped.told s.result cs = [] := by
      cases shape <;> rfl
    exact ⟨hnone, by rw [hnone]; exact Nat.zero_le 1⟩

end ReturnShape

/-! ## Contexts -/

/-- The context for failures of a request: its dialect, and the name of its primitive or else its query
text, without its quoted literals if the settings hide them. -/
def Settings.contextOf (s : Settings) : Request → QueryContext
  | .primitive op _ => ⟨s.dialect, op.name⟩
  | .literal _ query _ => ⟨s.dialect, if s.redactLiterals then Text.redact query else query⟩
  | .filter _ f => ⟨s.dialect, if s.redactLiterals then Text.redact f.queryText else f.queryText⟩

theorem Settings.context_prepare {s : Settings} {m : Method} {args : List Value} {p : Prepared}
    (h : s.prepare m args = .ok p) : p.context = s.contextOf p.request := by
  unfold prepare at h
  split at h
  · cases h
  · unfold prepareBuiltin at h
    split at h <;> cases h
    rfl
  · obtain ⟨bindings, -, h⟩ := ok_of_bind h
    cases h
    rfl
  · obtain ⟨c, -, h⟩ := ok_of_bind h
    split at h <;> cases h
    rfl

/-! ## Invocations -/

namespace Invocation

/-- The rows when the caller is done with the result, after some calls if it is a lazy sequence. -/
def settled (i : Invocation α) (cs : List LazyCall) : Option (Rows α) :=
  i.rows.map fun rows => Shaping.settled ⟨i.result, rows⟩ cs

/-- The failures that the store reports: its answer, or what came from the cursor of its answer. -/
def failures (i : Invocation α) (answer : Except StoreError (Reply α)) (cs : List LazyCall) :
    List StoreError :=
  match answer with
  | .error e => [e]
  | .ok reply => (i.settled cs).toList.flatMap reply.failures

theorem told_ask [BEq α] (store : Store α) (earlier : List Request) (shape : ReturnShape)
    (p : Prepared) (cs : List LazyCall) :
    let i := ask store earlier shape p
    Shaped.told i.result cs = (i.failures (store earlier p.request) cs).map (p.context, ·) ∧
      (Shaped.told i.result cs).length ≤ 1 := by
  unfold ask
  cases store earlier p.request with
  | error e => exact ⟨rfl, Nat.le_refl 1⟩
  | ok reply =>
    have hreply := shape.told_ofReply reply p.context cs
    simpa [failures, settled] using hreply

end Invocation

/-- The failures of the store in an invocation, for any settings, any method, any arguments and any
store, and for any calls to the result if it is a lazy sequence. If the method asks nothing of its
arguments, the caller is told of no failure of the store. Otherwise the caller is told of just what the
store reports, in its answer to the request or by its cursor up to the last row that was asked for, in
the context of the request. That is at most one failure, the first, after which no row is asked for. -/
theorem Settings.told_invoke [BEq α] (s : Settings) (store : Store α) (earlier : List Request)
    (m : Method) (args : List Value) (cs : List LazyCall) :
    let i := s.invoke store earlier m args
    (i.requests = [] ∧ (∀ request, ¬s.Asks m args request) ∧ Shaped.told i.result cs = []) ∨
      ∃ request, i.requests = [request] ∧ s.Asks m args request ∧
        Shaped.told i.result cs =
          (i.failures (store earlier request) cs).map (s.contextOf request, ·) ∧
        (Shaped.told i.result cs).length ≤ 1 := by
  unfold invoke
  cases hprepare : s.prepare m args with
  | error e =>
    refine .inl ⟨rfl, fun request h => ?_, ?_⟩
    · obtain ⟨context, hok⟩ := prepare_of_asks h
      rw [hprepare] at hok
      cases hok
    · have hrefusal := isRefusal_prepare hprepare
      cases e with
      | declaration _ | binding _ | condition _ => rfl
      | result _ | store _ _ => exact absurd hrefusal id
  | ok p =>
    refine .inr ⟨p.request, Invocation.requests_ask, asks_of_prepare hprepare, ?_⟩
    rw [← context_prepare hprepare]
    exact Invocation.told_ask store earlier m.returns p cs

/-- A lazy sequence tells of a failure when it comes to it. The literal in its query text is hidden, or
shown if the settings say so. -/
theorem Settings.told_redacted :
    let store : Store Nat := fun _ _ => .ok (.rows ⟨[.row 1, .failure ⟨"gone", []⟩, .row 2], []⟩)
    let m : Method := { name := "all", returns := .lazySequence, query := some "n.name = 'Ada'" }
    let told (redactLiterals : Bool) : List (QueryContext × StoreError) :=
      Shaped.told (Settings.invoke { redactLiterals } store [] m []).result [.next, .isOpen, .next, .next]
    told true = [(⟨.atNamed, "n.name = '?'"⟩, ⟨"gone", []⟩)] ∧
      told false = [(⟨.atNamed, "n.name = 'Ada'"⟩, ⟨"gone", []⟩)] := by
  intro store m told
  have horigin : m.HasOrigin (.literal "n.name = 'Ada'") :=
    Method.origin_eq_ok_iff.1 (by decide +kernel)
  have htold (redactLiterals : Bool) : told redactLiterals =
      [(contextOf { redactLiterals } (.literal .atNamed "n.name = 'Ada'" (.named [])), ⟨"gone", []⟩)] := by
    have hasked : Asks { redactLiterals } m [] (.literal .atNamed "n.name = 'Ada'" (.named [])) :=
      .named horigin rfl List.nodup_nil .nil
    rcases Settings.told_invoke { redactLiterals } store [] m [] [.next, .isOpen, .next, .next] with
      ⟨-, hnone, -⟩ | ⟨request, -, hasks, htold, -⟩
    · exact absurd hasked (hnone _)
    · obtain rfl := hasks.unique hasked
      refine htold.trans ?_
      obtain ⟨context, hprepare⟩ := prepare_of_asks hasked
      rw [invoke, hprepare]
      rfl
  exact ⟨(htold true).trans (by decide +kernel), (htold false).trans rfl⟩

end QueryMethods
