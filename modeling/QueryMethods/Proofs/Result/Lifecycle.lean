/-
The lifecycle of a cursor. Whatever the shape, the cursor behind it is closed once and not asked
again: shapes that hand rows back have closed it when they are done, and a lazy sequence closes it
at its first end or failure, or when it is dropped. What a shape does not need it does not read.

The invariant is `Rows.Sound`: rows that are open have never been closed, and the last thing that
happened to rows that are not open is their only closing.
-/
import QueryMethods.Proofs.Outcome
import QueryMethods.Result.Shape

namespace QueryMethods

variable {α : Type}

/-! ## Cursors -/

namespace Cursor

/-- The last thing that happened to the cursor is its only closing. -/
def Released (c : Cursor α) : Prop :=
  ∃ earlier, c.events = .closed :: earlier ∧ .closed ∉ earlier

@[simp] theorem polls_close (c : Cursor α) : c.close.polls = c.polls := by
  simp [close, polls, isAsked]

theorem released_close {c : Cursor α} (h : .closed ∉ c.events) : c.close.Released :=
  ⟨c.events, rfl, h⟩

/-- A released cursor was closed once. -/
theorem Released.closes_eq {c : Cursor α} (h : c.Released) : c.closes = 1 := by
  obtain ⟨earlier, he, hn⟩ := h
  rw [closes, he, List.count_cons_self, List.count_eq_zero_of_not_mem hn]

theorem events_next (c : Cursor α) : ∃ b, c.next.2.events = .asked b :: c.events := by
  unfold next
  split
  · exact ⟨false, rfl⟩
  · exact ⟨false, rfl⟩
  · exact ⟨true, rfl⟩

theorem polls_next (c : Cursor α) : c.next.2.polls = c.polls + 1 := by
  obtain ⟨b, hb⟩ := c.events_next
  unfold polls
  rw [hb, List.countP_cons_of_pos rfl]

theorem not_closed_next {c : Cursor α} (h : .closed ∉ c.events) : .closed ∉ c.next.2.events := by
  obtain ⟨b, hb⟩ := c.events_next
  rw [hb]
  simpa using h

end Cursor

/-! ## Rows -/

namespace Rows

/-- Rows that are open were never closed, and rows that are not were closed last of all. -/
structure Sound (r : Rows α) : Prop where
  held : r.isOpen = true → .closed ∉ r.cursor.events
  released : r.isOpen = false → r.cursor.Released

/-- The three things that asking open rows does: a row comes and they stay open, or a failure or the
end comes and the cursor is closed. -/
theorem next_open {r : Rows α} (h : r.isOpen = true) :
    (∃ a, r.next = (.ok (some a), { r with cursor := r.cursor.next.2 })) ∨
      (∃ e, r.next = (.error (.store r.context e), ⟨r.cursor.next.2.close, false, r.context⟩)) ∨
      r.next = (.ok none, ⟨r.cursor.next.2.close, false, r.context⟩) := by
  unfold next
  rw [if_pos h]
  rcases hn : r.cursor.next with ⟨_ | _ | _, c⟩
  · exact .inl ⟨_, rfl⟩
  · rename_i e
    exact .inr (.inl ⟨e, by simp only [close, h, if_true]⟩)
  · exact .inr (.inr (by simp only [close, h, if_true]))

theorem next_closed {r : Rows α} (h : r.isOpen = false) : r.next = (.ok none, r) := by
  unfold next
  rw [h]; rfl

theorem sound_ofCursor (script : List (RowAnswer α)) (context : QueryContext) :
    (ofCursor ⟨script, []⟩ context).Sound :=
  ⟨fun _ => List.not_mem_nil, fun h => by cases h⟩

theorem Sound.next {r : Rows α} (h : r.Sound) : r.next.2.Sound := by
  cases hr : r.isOpen with
  | false => rw [next_closed hr]; exact h
  | true =>
    have hc := Cursor.not_closed_next (h.held hr)
    -- A row leaves the cursor held; a failure or the end closes what was never closed.
    rcases next_open hr with ⟨a, hn⟩ | ⟨e, hn⟩ | hn <;> rw [hn]
    · exact ⟨fun _ => hc, fun hf => by rw [hr] at hf; cases hf⟩
    · exact ⟨fun hf => (by cases hf), fun _ => Cursor.released_close hc⟩
    · exact ⟨fun hf => (by cases hf), fun _ => Cursor.released_close hc⟩

/-- Rows that are given up leave a released cursor, whether they were open or not. -/
theorem Sound.released_close {r : Rows α} (h : r.Sound) : r.close.cursor.Released := by
  unfold close
  split
  · rename_i hr; exact Cursor.released_close (h.held hr)
  · rename_i hr; exact h.released (by simpa using hr)

theorem polls_next {r : Rows α} :
    r.next.2.cursor.polls = r.cursor.polls + if r.isOpen then 1 else 0 := by
  cases hr : r.isOpen with
  | false => rw [next_closed hr]; rfl
  | true =>
    rcases next_open hr with ⟨a, hn⟩ | ⟨e, hn⟩ | hn <;> rw [hn]
    · exact Cursor.polls_next _
    · rw [Cursor.polls_close]; exact Cursor.polls_next _
    · rw [Cursor.polls_close]; exact Cursor.polls_next _

theorem polls_next_le (r : Rows α) : r.next.2.cursor.polls ≤ r.cursor.polls + 1 := by
  rw [polls_next]
  split <;> omega

theorem polls_close (r : Rows α) : r.close.cursor.polls = r.cursor.polls := by
  unfold close
  split
  · exact Cursor.polls_close _
  · rfl

/-! ## Reading for a shape -/

theorem Sound.collect {r : Rows α} (h : r.Sound) : r.collect.2.Sound := by
  fun_induction Rows.collect r with
  | case1 r e hn => exact h.next
  | case2 r hn => exact h.next
  | case3 r a hn others ih => exact ih h.next

theorem Sound.atMostOne {r : Rows α} (h : r.Sound) : r.atMostOne.2.Sound := by
  unfold Rows.atMostOne
  split
  · rename_i a r' hn
    have h' : r'.Sound := by have := h.next; rw [hn] at this; exact this
    have h'' := h'.next
    split <;> rename_i hn' <;> rw [hn'] at h'' <;> exact h''
  · exact h.next

theorem polls_atMostOne (r : Rows α) : r.atMostOne.2.cursor.polls ≤ r.cursor.polls + 2 := by
  unfold atMostOne
  have h := r.polls_next_le
  split
  · rename_i a r' hn
    rw [hn] at h
    have h' := r'.polls_next_le
    split <;> rename_i hn' <;> rw [hn'] at h' <;> simp only at h h' ⊢ <;> omega
  · omega

/-! ## Lazy sequences -/

end Rows

/-- What the holder of a lazy sequence does with it. -/
inductive LazyCall where
  | next | isOpen
  deriving DecidableEq

/-- What a lazy sequence answers to a call. -/
inductive LazyAnswer (α : Type) where
  | next (result : Except Failure (Option α))
  | isOpen (answer : Bool)

/-- Whether an answer is the end of the sequence or its failure. -/
def LazyAnswer.isLast : LazyAnswer α → Bool
  | .next (.ok none) | .next (.error _) => true
  | _ => false

namespace Rows

/-- The answer of a lazy sequence to a call, and the rows after it. -/
def call (r : Rows α) : LazyCall → LazyAnswer α × Rows α
  | .next => (.next r.next.1, r.next.2)
  | .isOpen => (.isOpen r.isOpen, r)

/-- Makes calls one after the other. -/
def calls (r : Rows α) : List LazyCall → List (LazyAnswer α) × Rows α
  | [] => ([], r)
  | c :: cs => ((r.call c).1 :: ((r.call c).2.calls cs).1, ((r.call c).2.calls cs).2)

/-- How many calls ask for a row while the sequence is open. -/
def asks (r : Rows α) : List LazyCall → Nat
  | [] => 0
  | c :: cs => (if c = .next ∧ r.isOpen then 1 else 0) + (r.call c).2.asks cs

theorem Sound.call {r : Rows α} (h : r.Sound) (c : LazyCall) : (r.call c).2.Sound := by
  cases c with
  | next => exact h.next
  | isOpen => exact h

theorem Sound.calls (cs : List LazyCall) : ∀ {r : Rows α}, r.Sound → (r.calls cs).2.Sound := by
  induction cs with
  | nil => intro r h; exact h
  | cons c cs ih => intro r h; exact ih (h.call c)

theorem polls_calls (cs : List LazyCall) :
    ∀ r : Rows α, (r.calls cs).2.cursor.polls = r.cursor.polls + r.asks cs := by
  induction cs with
  | nil => intro r; rfl
  | cons c cs ih =>
    intro r
    rw [calls, asks, ih]
    cases c with
    | next => simp only [call, polls_next, true_and]; omega
    | isOpen => simp only [call, reduceCtorEq, false_and, if_false]; omega

/-- A call leaves open rows open unless its answer is the last, and closed ones closed. -/
theorem isOpen_call (r : Rows α) (c : LazyCall) :
    (r.call c).2.isOpen = (r.isOpen && !(r.call c).1.isLast) := by
  cases c with
  | isOpen => simp [call, LazyAnswer.isLast]
  | next =>
    cases hr : r.isOpen with
    | false => simp only [call, next_closed hr, hr]; rfl
    | true =>
      rcases next_open hr with ⟨a, hn⟩ | ⟨e, hn⟩ | hn <;> simp only [call, hn, LazyAnswer.isLast]
      · rw [hr]; rfl
      · rfl
      · rfl

/-- A sequence is open until its last answer. -/
theorem isOpen_calls (cs : List LazyCall) :
    ∀ r : Rows α, (r.calls cs).2.isOpen = (r.isOpen && !(r.calls cs).1.any LazyAnswer.isLast) := by
  induction cs with
  | nil => intro r; simp [calls]
  | cons c cs ih =>
    intro r
    rw [calls, ih, isOpen_call, List.any_cons, Bool.not_or, Bool.and_assoc]

end Rows

/-! ## Shapes -/

/-- The rows when the caller is done with a result: a lazy sequence is dropped after some calls, and
with all other results the rows are as shaping left them. -/
def Shaping.settled (s : Shaping α) (cs : List LazyCall) : Rows α :=
  match s.result with
  | .ok (.lazy r) => (r.calls cs).2.close
  | _ => s.rows

namespace ReturnShape

variable [BEq α]

theorem sound_read (shape : ReturnShape) {r : Rows α} (h : r.Sound) : (shape.read r).2.Sound := by
  cases shape with
  | single => exact h.atMostOne
  | nullableSingle => exact h.atMostOne
  | existence => exact h.next
  | lazySequence => exact h
  | nothing => exact h
  | _ => exact h.collect

/-- Only a lazy sequence is given rows to keep. -/
theorem read_ne_lazy {shape : ReturnShape} (h : shape ≠ .lazySequence) (r r' : Rows α) :
    (shape.read r).1 ≠ .ok (.lazy r') := by
  cases shape with
  | lazySequence => exact absurd rfl h
  | nothing => intro he; cases he
  | single =>
    unfold read
    rcases r.atMostOne with ⟨_ | _ | _, _⟩ <;> intro he <;> cases he
  | nullableSingle | orderedList | uniqueSet | count | existence =>
    unfold read
    intro he
    obtain ⟨a, -, ha⟩ := ok_of_map he
    cases ha

theorem settled_ofRows {shape : ReturnShape} (h : shape ≠ .lazySequence) (r : Rows α)
    (cs : List LazyCall) : (shape.ofRows r).settled cs = (shape.read r).2.close := by
  unfold Shaping.settled
  split
  · rename_i r' he
    exact absurd he (read_ne_lazy h r r')
  · simp only [ofRows, if_neg h]

theorem settled_lazySequence (r : Rows α) (cs : List LazyCall) :
    ((lazySequence).ofRows r).settled cs = (r.calls cs).2.close := rfl

theorem released_settled (shape : ReturnShape) {r : Rows α} (h : r.Sound) (cs : List LazyCall) :
    ((shape.ofRows r).settled cs).cursor.Released := by
  by_cases hs : shape = .lazySequence
  · subst hs
    rw [settled_lazySequence]
    exact (h.calls cs).released_close
  · rw [settled_ofRows hs]
    exact (shape.sound_read h).released_close

/-- The lifecycle of the cursor that a store answers with, for any script of rows, failures and ends
and for any calls to a lazy sequence before it is dropped. In the end the cursor was closed once,
and closing it was the last thing that happened to it. Single shapes read at most two rows, existence
one, nothing none; a lazy sequence reads one for each `next` while it is open, which it is until its
first end or failure, and after that it answers that there is nothing more. -/
theorem lifecycle (shape : ReturnShape) (script : List (RowAnswer α)) (context : QueryContext)
    (cs : List LazyCall) :
    let s := shape.ofReply (.rows ⟨script, []⟩) context
    let cursor := (s.settled cs).cursor
    cursor.Released ∧ cursor.closes = 1 ∧
      match shape with
      | .single | .nullableSingle => cursor.polls ≤ 2
      | .existence => cursor.polls ≤ 1
      | .nothing => cursor.polls = 0
      | .lazySequence => ∃ r, s.result = .ok (.lazy r) ∧ cursor.polls = r.asks cs ∧
          ((r.calls cs).2.call .isOpen).1 = .isOpen (!(r.calls cs).1.any LazyAnswer.isLast) ∧
          ((r.calls cs).1.any LazyAnswer.isLast = true →
            ((r.calls cs).2.call .next).1 = .next (.ok none))
      | _ => True := by
  intro s cursor
  have hsound := Rows.sound_ofCursor script context
  have hreleased : cursor.Released := released_settled shape hsound cs
  -- Every other shape has read what it reads when its rows are handed back.
  have hpolls (h : shape ≠ .lazySequence) :
      cursor.polls = (shape.read (.ofCursor ⟨script, []⟩ context)).2.cursor.polls := by
    show ((shape.ofRows _).settled cs).cursor.polls = _
    rw [settled_ofRows h, Rows.polls_close]
  refine ⟨hreleased, hreleased.closes_eq, ?_⟩
  cases shape with
  | lazySequence =>
    refine ⟨.ofCursor ⟨script, []⟩ context, rfl, ?_, ?_, fun hlast => ?_⟩
    · show (Rows.close _).cursor.polls = _
      rw [Rows.polls_close, Rows.polls_calls]
      exact Nat.zero_add _
    · rw [Rows.call, Rows.isOpen_calls]; rfl
    · -- After the last answer the rows are closed, and closed rows answer that there is no row.
      have hclosed := Rows.isOpen_calls cs (.ofCursor ⟨script, []⟩ context)
      rw [hlast, Bool.not_true, Bool.and_false] at hclosed
      rw [Rows.call, Rows.next_closed hclosed]
  | single | nullableSingle =>
    rw [hpolls (by decide)]
    exact Rows.polls_atMostOne _
  | existence =>
    rw [hpolls (by decide)]
    exact Rows.polls_next_le _
  | nothing =>
    rw [hpolls (by decide)]
    rfl
  | _ => trivial

end ReturnShape

end QueryMethods
