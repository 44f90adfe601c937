/-
Shapes as views of one sequence. What a cursor will give is a sequence of rows and failures, up to
its first end; whatever the shape, the result is determined by that sequence: lists, sets and counts
by its rows up to the first failure, single shapes by its first two members, existence by the first.
An answer without a cursor is read like an empty cursor, and a count like as many rows.

One step is `Rows.next_spec`: asking for a row takes the first member off the sequence. Lists, sets
and counts follow by induction on `collect`, a lazy sequence by induction on the number of calls.
-/
import QueryMethods.Proofs.Result.Lifecycle
import QueryMethods.Value.Equality

namespace QueryMethods

variable {α : Type}

/-! ## Sequences -/

/-- The rows and failures of a cursor, up to its first end. -/
def Cursor.results : List (RowAnswer α) → List (Except StoreError α)
  | [] => []
  | .row a :: r => .ok a :: results r
  | .failure e :: r => .error e :: results r
  | .finished :: _ => []

/-- All rows of a sequence, or its first failure. -/
def whole (context : QueryContext) : List (Except StoreError α) → Except Failure (List α)
  | [] => .ok []
  | .ok a :: r => (a :: ·) <$> whole context r
  | .error e :: _ => .error (.store context e)

theorem whole_map_ok (context : QueryContext) (rows : List α) :
    whole context (rows.map .ok) = .ok rows := by
  induction rows with
  | nil => rfl
  | cons a rows ih => rw [List.map_cons, whole, ih]; rfl

/-- Either no member of a sequence is a failure, or there is a first one. -/
theorem whole_cases (context : QueryContext) (results : List (Except StoreError α)) :
    (∃ rows : List α, results = rows.map .ok ∧ whole context results = .ok rows) ∨
      ∃ (rows : List α) (e : StoreError) (rest : List (Except StoreError α)),
        results = rows.map .ok ++ .error e :: rest ∧
          whole context results = .error (.store context e) := by
  induction results with
  | nil => exact .inl ⟨[], rfl, rfl⟩
  | cons result results ih =>
    cases result with
    | error e => exact .inr ⟨[], e, results, rfl, rfl⟩
    | ok a =>
      rcases ih with ⟨rows, rfl, hw⟩ | ⟨rows, e, rest, rfl, hw⟩
      · exact .inl ⟨a :: rows, rfl, by rw [whole, hw]; rfl⟩
      · exact .inr ⟨a :: rows, e, rest, rfl, by rw [whole, hw]; rfl⟩

theorem Cursor.results_map_row (rows : List α) : Cursor.results (rows.map .row) = rows.map .ok := by
  induction rows with
  | nil => rfl
  | cons a rows ih => rw [List.map_cons, Cursor.results, ih, List.map_cons]

namespace Rows

/-- What is left of the sequence: nothing once the rows are closed. -/
def results (r : Rows α) : List (Except StoreError α) :=
  if r.isOpen then Cursor.results r.cursor.script else []

theorem results_closed {r : Rows α} (h : r.isOpen = false) : r.results = [] := by
  unfold results
  rw [h]
  rfl

/-- Asking for a row takes the first member off the sequence; a failure, and the end, leave closed
rows. -/
theorem next_spec (r : Rows α) :
    ∃ left, left.context = r.context ∧
      ((r.results = [] ∧ r.next = (.ok none, left) ∧ left.isOpen = false) ∨
        (∃ a, r.results = .ok a :: left.results ∧ r.next = (.ok (some a), left)) ∨
        ∃ e rest, r.results = .error e :: rest ∧ r.next = (.error (.store r.context e), left) ∧
          left.isOpen = false) := by
  cases hr : r.isOpen with
  | false => exact ⟨r, rfl, .inl ⟨results_closed hr, next_closed hr, hr⟩⟩
  | true =>
    obtain ⟨⟨script, events⟩, isOpen, context⟩ := r
    cases hr
    refine ⟨(next ⟨⟨script, events⟩, true, context⟩).2, ?_⟩
    rcases script with _ | ⟨a | e | _, script⟩
    · exact ⟨rfl, .inl ⟨rfl, rfl, rfl⟩⟩
    · exact ⟨rfl, .inr (.inl ⟨a, rfl, rfl⟩)⟩
    · exact ⟨rfl, .inr (.inr ⟨e, Cursor.results script, rfl, rfl, rfl⟩)⟩
    · exact ⟨rfl, .inl ⟨rfl, rfl, rfl⟩⟩

theorem collect_eq (r : Rows α) : r.collect.1 = whole r.context r.results := by
  fun_induction collect r with
  | case1 r e hn =>
    obtain ⟨left, -, ⟨-, hn', -⟩ | ⟨a, -, hn'⟩ | ⟨e', rest, hr, hn', -⟩⟩ := r.next_spec <;>
      rw [hn'] at hn <;> cases hn
    rw [hr, whole]
  | case2 r hn =>
    obtain ⟨left, -, ⟨hr, -, -⟩ | ⟨a, -, hn'⟩ | ⟨e', rest, -, hn', -⟩⟩ := r.next_spec
    · rw [hr, whole]
    · rw [hn'] at hn; cases hn
    · rw [hn'] at hn; cases hn
  | case3 r a hn others ih =>
    obtain ⟨left, hc, ⟨-, hn', -⟩ | ⟨b, hr, hn'⟩ | ⟨e', rest, -, hn', -⟩⟩ := r.next_spec <;>
      rw [hn'] at hn <;> cases hn
    have hothers : others = left.collect := by unfold others; rw [hn']
    rw [hn'] at ih
    rw [hothers, hr, whole, ← hc, ih]

theorem atMostOne_spec (r : Rows α) :
    r.atMostOne.1 = match r.results with
      | [] => .ok none
      | [.ok a] => .ok (some a)
      | .ok _ :: .ok _ :: _ => .error (.result .ambiguous)
      | .ok _ :: .error e :: _ | .error e :: _ => .error (.store r.context e) := by
  unfold atMostOne
  obtain ⟨left, hc, ⟨hr, hn, -⟩ | ⟨a, hr, hn⟩ | ⟨e, rest, hr, hn, -⟩⟩ := r.next_spec
  · simp only [hr, hn]
  · -- The first row is the only one if the end comes next.
    obtain ⟨left', -, ⟨hr', hn', -⟩ | ⟨b, hr', hn'⟩ | ⟨e, rest, hr', hn', -⟩⟩ := left.next_spec <;>
      simp only [hr, hn, hr', hn', hc]
  · simp only [hr, hn]

end Rows

/-! ## Calls to a lazy sequence -/

/-- What a lazy sequence answers with, one member after the other, up to its first failure. -/
def LazyAnswer.ofResults (context : QueryContext) : List (Except StoreError α) → List (LazyAnswer α)
  | [] => []
  | .ok a :: r => .next (.ok (some a)) :: ofResults context r
  | .error e :: _ => [.next (.error (.store context e))]

namespace Rows

/-- The answers to `n` calls for a row: those of the sequence, and then that there is nothing more. -/
theorem calls_next (n : Nat) : ∀ r : Rows α,
    (r.calls (.replicate n .next)).1 =
      (LazyAnswer.ofResults r.context r.results ++ .replicate n (.next (.ok none))).take n := by
  induction n with
  | zero => intro r; rw [List.take_zero]; rfl
  | succ n ih =>
    intro r
    rw [List.replicate_succ, calls, ih]
    obtain ⟨left, hc, ⟨hr, hn, ho⟩ | ⟨a, hr, hn⟩ | ⟨e, rest, hr, hn, ho⟩⟩ := r.next_spec <;>
      simp only [call, hn, hr, hc, LazyAnswer.ofResults]
    · simp [results_closed ho, LazyAnswer.ofResults, List.replicate_succ]
    · -- One more answer at the end does not show among the first ones.
      rw [List.cons_append, List.take_succ_cons]
      simp only [List.take_append, List.take_replicate]
      congr 3
      omega
    · simp [results_closed ho, LazyAnswer.ofResults, List.replicate_succ']

theorem calls_isOpen (r : Rows α) (n : Nat) (cs : List LazyCall) :
    (r.calls (.replicate n .isOpen ++ cs)).1 =
      .replicate n (.isOpen r.isOpen) ++ (r.calls cs).1 := by
  induction n with
  | zero => rfl
  | succ n ih =>
    rw [List.replicate_succ, List.replicate_succ, List.cons_append, List.cons_append, calls]
    exact congrArg _ ih

/-- Closed rows answer alike, whatever they were read from. -/
theorem calls_closed {r r' : Rows α} (h : r.isOpen = false) (h' : r'.isOpen = false)
    (cs : List LazyCall) : (r.calls cs).1 = (r'.calls cs).1 := by
  induction cs with
  | nil => rfl
  | cons c cs ih =>
    rw [calls, calls]
    cases c with
    | next => simp only [call, next_closed h, next_closed h', ih]
    | isOpen => simp only [call, h, h', ih]

/-- Rows at the end of their sequence are closed by the first call for a row, if they are not yet, and
answer like rows without a cursor from then on. -/
theorem calls_ended {r : Rows α} (h : r.results = []) (n : Nat) (cs : List LazyCall) :
    (r.calls (.replicate n .isOpen ++ .next :: cs)).1 =
      .replicate n (.isOpen r.isOpen) ++ .next (.ok none) :: ((empty r.context).calls cs).1 := by
  have hempty : (empty r.context : Rows α).isOpen = false := rfl
  obtain ⟨left, -, ⟨-, hn, ho⟩ | ⟨a, hr, -⟩ | ⟨e, rest, hr, -⟩⟩ := r.next_spec
  · rw [calls_isOpen, calls]
    simp only [call, hn, calls_closed ho hempty]
  · rw [h] at hr; cases hr
  · rw [h] at hr; cases hr

end Rows

/-! ## Distinct rows -/

section Distinct

variable [BEq α]

/-- The rows that equal no earlier row, when some came before them all. -/
def newcomers (earlier : List α) : List α → List α
  | [] => []
  | a :: r =>
    if earlier.any (· == a) then newcomers (earlier ++ [a]) r
    else a :: newcomers (earlier ++ [a]) r

/-- Rows without their repetitions, for an equality that need not hold between a row and itself. -/
structure Distinct (rows kept : List α) : Prop where
  subsequence : kept.Sublist rows
  unequal : kept.Pairwise fun a b => (a == b) = false ∧ (b == a) = false
  covers : ∀ a ∈ rows, a ∈ kept ∨ ∃ b ∈ kept, (b == a) = true ∧ (a == b) = true
  selfUnequal : (kept.filter fun a => !(a == a)) = rows.filter fun a => !(a == a)

theorem newcomers_sublist (rows earlier : List α) : (newcomers earlier rows).Sublist rows := by
  induction rows generalizing earlier with
  | nil => exact List.Sublist.slnil
  | cons a rows ih =>
    unfold newcomers
    split
    · exact (ih _).cons a
    · exact (ih _).cons_cons a

theorem unequal_of_mem_newcomers {rows earlier : List α} {a b : α} (ha : a ∈ earlier)
    (hb : b ∈ newcomers earlier rows) : (a == b) = false := by
  induction rows generalizing earlier with
  | nil => cases hb
  | cons c rows ih =>
    unfold newcomers at hb
    split at hb
    · exact ih (List.mem_append_left _ ha) hb
    · rename_i hc
      rcases List.mem_cons.1 hb with rfl | hb
      · simpa using fun h => hc (List.any_eq_true.2 ⟨a, ha, h⟩)
      · exact ih (List.mem_append_left _ ha) hb

theorem pairwise_newcomers (rows earlier : List α) :
    (newcomers earlier rows).Pairwise fun a b => (a == b) = false := by
  induction rows generalizing earlier with
  | nil => exact .nil
  | cons a rows ih =>
    unfold newcomers
    split
    · exact ih _
    · exact .cons (fun b hb => unequal_of_mem_newcomers (List.mem_append_right _ List.mem_cons_self) hb)
        (ih _)

/-- A row is kept, or an earlier one or a kept one equals it. -/
theorem mem_newcomers_or (trans : ∀ a b c : α, a == b → b == c → a == c) {rows : List α}
    (earlier : List α) {a : α} (h : a ∈ rows) :
    a ∈ newcomers earlier rows ∨ ∃ b, (b ∈ earlier ∨ b ∈ newcomers earlier rows) ∧ b == a := by
  induction rows generalizing earlier with
  | nil => cases h
  | cons c rows ih =>
    have hrest (h : a ∈ rows) : a ∈ newcomers (earlier ++ [c]) rows ∨
        ∃ b, (b ∈ earlier ∨ b = c ∨ b ∈ newcomers (earlier ++ [c]) rows) ∧ b == a := by
      simpa [or_assoc] using ih (earlier ++ [c]) h
    unfold newcomers
    split
    · rename_i hc
      obtain ⟨d, hd, hdc⟩ := List.any_eq_true.1 hc
      rcases List.mem_cons.1 h with rfl | h
      · exact .inr ⟨d, .inl hd, hdc⟩
      · rcases hrest h with ha | ⟨b, hb | rfl | hb, hba⟩
        · exact .inl ha
        · exact .inr ⟨b, .inl hb, hba⟩
        · -- What equals the row that was left out is equalled by the one before it.
          exact .inr ⟨d, .inl hd, trans _ _ _ hdc hba⟩
        · exact .inr ⟨b, .inr hb, hba⟩
    · rcases List.mem_cons.1 h with rfl | h
      · exact .inl List.mem_cons_self
      · rcases hrest h with ha | ⟨b, hb | rfl | hb, hba⟩
        · exact .inl (List.mem_cons_of_mem _ ha)
        · exact .inr ⟨b, .inl hb, hba⟩
        · exact .inr ⟨b, .inr List.mem_cons_self, hba⟩
        · exact .inr ⟨b, .inr (List.mem_cons_of_mem _ hb), hba⟩

/-- A row that differs from itself is equal to nothing, so it is always new. -/
theorem filter_newcomers (symm : ∀ a b : α, a == b → b == a)
    (trans : ∀ a b c : α, a == b → b == c → a == c) (rows earlier : List α) :
    ((newcomers earlier rows).filter fun a => !(a == a)) = rows.filter fun a => !(a == a) := by
  induction rows generalizing earlier with
  | nil => rfl
  | cons a rows ih =>
    unfold newcomers
    split
    · rename_i ha
      obtain ⟨b, -, hb⟩ := List.any_eq_true.1 ha
      have hself : a == a := trans _ _ _ (symm _ _ hb) hb
      rw [ih, List.filter_cons_of_neg (by simpa using hself)]
    · rw [List.filter_cons, List.filter_cons, ih]

/-- Keeping the rows that equal no kept one is keeping those that equal no earlier one: a row that
was not kept is equalled by one that was. -/
theorem distinct_eq_newcomers (trans : ∀ a b c : α, a == b → b == c → a == c) (rows : List α) :
    distinct rows = newcomers [] rows := by
  suffices ∀ kept earlier : List α, (∀ a, kept.any (· == a) = earlier.any (· == a)) →
      rows.foldl (fun kept a => if kept.any (· == a) then kept else kept ++ [a]) kept =
        kept ++ newcomers earlier rows from this [] [] fun _ => rfl
  induction rows with
  | nil => intro kept earlier _; exact (List.append_nil kept).symm
  | cons a rows ih =>
    intro kept earlier hsame
    rw [List.foldl_cons]
    unfold newcomers
    rw [hsame a]
    split
    · rename_i ha
      refine ih kept (earlier ++ [a]) fun b => ?_
      obtain ⟨c, hc, hca⟩ := List.any_eq_true.1 ha
      rw [hsame b, List.any_append, Bool.eq_iff_iff, Bool.or_eq_true]
      refine ⟨.inl, fun h => h.elim id fun h => List.any_eq_true.2 ⟨c, hc, ?_⟩⟩
      exact trans _ _ _ hca (by simpa using h)
    · rw [ih (kept ++ [a]) (earlier ++ [a]) fun b => ?_, List.append_assoc]
      · rfl
      · rw [List.any_append, List.any_append, hsame b]

theorem distinct_newcomers (symm : ∀ a b : α, a == b → b == a)
    (trans : ∀ a b c : α, a == b → b == c → a == c) (rows : List α) :
    Distinct rows (newcomers [] rows) where
  subsequence := newcomers_sublist rows []
  unequal := (pairwise_newcomers rows []).imp fun {a b} h =>
    ⟨h, by simpa using fun h' => Bool.eq_false_iff.1 h (symm b a h')⟩
  covers := by
    intro a ha
    rcases mem_newcomers_or trans [] ha with ha | ⟨b, hb | hb, hba⟩
    · exact .inl ha
    · cases hb
    · exact .inr ⟨b, hb, hba, symm b a hba⟩
  selfUnequal := filter_newcomers symm trans rows []

end Distinct

/-! ## Shapes -/

namespace ReturnShape

variable [BEq α]

theorem read_orderedList (r : Rows α) :
    (orderedList.read r).1 = Shaped.list <$> whole r.context r.results := by
  rw [← Rows.collect_eq]
  rfl

theorem read_uniqueSet (r : Rows α) :
    (uniqueSet.read r).1 = (fun rows => Shaped.set (distinct rows)) <$> whole r.context r.results := by
  rw [← Rows.collect_eq]
  rfl

theorem read_count (r : Rows α) :
    (count.read r).1 =
      (fun rows => Shaped.count rows.length.toUInt64) <$> whole r.context r.results := by
  rw [← Rows.collect_eq]
  rfl

theorem read_existence (r : Rows α) :
    (existence.read r).1 = match r.results with
      | [] => .ok (.existence false)
      | .ok _ :: _ => .ok (.existence true)
      | .error e :: _ => .error (.store r.context e) := by
  unfold read
  obtain ⟨left, -, ⟨hr, hn, -⟩ | ⟨a, hr, hn⟩ | ⟨e, rest, hr, hn, -⟩⟩ := r.next_spec <;>
    simp only [hr, hn] <;> rfl

theorem read_nullableSingle (r : Rows α) :
    (nullableSingle.read r).1 = match r.results with
      | [] => .ok (.nullable none)
      | [.ok a] => .ok (.nullable (some a))
      | .ok _ :: .ok _ :: _ => .error (.result .ambiguous)
      | .ok _ :: .error e :: _ | .error e :: _ => .error (.store r.context e) := by
  unfold read
  simp only [r.atMostOne_spec]
  rcases r.results with _ | ⟨_ | _, _ | ⟨_ | _, _⟩⟩ <;> rfl

theorem read_single (r : Rows α) :
    (single.read r).1 = match r.results with
      | [] => .error (.result .notFound)
      | [.ok a] => .ok (.single a)
      | .ok _ :: .ok _ :: _ => .error (.result .ambiguous)
      | .ok _ :: .error e :: _ | .error e :: _ => .error (.store r.context e) := by
  unfold read
  simp only [r.atMostOne_spec]
  rcases r.results with _ | ⟨_ | _, _ | ⟨_ | _, _⟩⟩ <;> rfl

/-- What a shape makes of rows, other than the rows themselves, is told by their sequence. -/
theorem read_congr {shape : ReturnShape} (h : shape ≠ .lazySequence) {r r' : Rows α}
    (hr : r.results = r'.results) (hc : r.context = r'.context) :
    (shape.read r).1 = (shape.read r').1 := by
  cases shape with
  | lazySequence => exact absurd rfl h
  | nothing => rfl
  | orderedList => rw [read_orderedList, read_orderedList, hr, hc]
  | uniqueSet => rw [read_uniqueSet, read_uniqueSet, hr, hc]
  | count => rw [read_count, read_count, hr, hc]
  | existence => rw [read_existence, read_existence, hr, hc]
  | single => rw [read_single, read_single, hr, hc]
  | nullableSingle => rw [read_nullableSingle, read_nullableSingle, hr, hc]

/-- A count is what reading as many rows gives. -/
theorem ofReply_count {shape : ReturnShape} (h : shape ∈ [.count, .existence, .nothing])
    (context : QueryContext) {n : UInt64} {rows : List α} (hn : rows.length = n.toNat) :
    ((shape.ofReply (.count n) context).result : Except Failure (Shaped α)) =
      (shape.ofReply (.rows ⟨rows.map .row, []⟩) context).result := by
  have hresults : (Rows.ofCursor ⟨rows.map .row, []⟩ context).results = rows.map .ok :=
    Cursor.results_map_row rows
  simp only [List.mem_cons, List.not_mem_nil, or_false] at h
  rcases h with rfl | rfl | rfl
  · show _ = (count.read _).1
    rw [read_count, hresults, whole_map_ok]
    show Except.ok (Shaped.count n) = .ok (.count rows.length.toUInt64)
    rw [hn, show n.toNat.toUInt64 = n from UInt64.ofNat_toNat]
  · show _ = (existence.read _).1
    rw [read_existence, hresults]
    -- There is a first row if and only if the count is not zero.
    cases rows with
    | nil =>
      have hzero : ¬ 0 < n := by rw [UInt64.lt_iff_toNat_lt, ← hn]; exact Nat.lt_irrefl 0
      show Except.ok (Shaped.existence (decide (0 < n))) = .ok (.existence false)
      rw [decide_eq_false hzero]
    | cons a rows =>
      have hpos : 0 < n := by rw [UInt64.lt_iff_toNat_lt, ← hn]; exact Nat.succ_pos _
      show Except.ok (Shaped.existence (decide (0 < n))) = .ok (.existence true)
      rw [decide_eq_true hpos]
  · rfl

/-- What every shape makes of the sequence of a cursor. Lists, sets and counts need all of it: its
rows if none failed, and otherwise the first failure; under a symmetric and transitive equality a set
has the rows that equal no earlier one. Existence needs the first member, single shapes the first two.
A lazy sequence answers with one member after the other. A store that answers with nothing might have
answered with an empty cursor, except that a lazy sequence which was not asked yet holds no cursor; one
that answers with a count might have answered with as many rows where a shape asks for no more than
their number, and is a failure for the other shapes. -/
theorem views (script : List (RowAnswer α)) (context : QueryContext) :
    let results := Cursor.results script
    let shaped (shape : ReturnShape) (reply : Reply α) := (shape.ofReply reply context).result
    let ofRows (shape : ReturnShape) := shaped shape (.rows ⟨script, []⟩)
    let failed (e : StoreError) : Except Failure (Shaped α) := .error (.store context e)
    ((∃ rows : List α, results = rows.map .ok ∧ ofRows .orderedList = .ok (.list rows) ∧
          ofRows .count = .ok (.count rows.length.toUInt64) ∧
          ((∀ a b : α, a == b → b == a) → (∀ a b c : α, a == b → b == c → a == c) →
            ofRows .uniqueSet = .ok (.set (newcomers [] rows)) ∧
              Distinct rows (newcomers [] rows))) ∨
        ∃ (rows : List α) (e : StoreError) (rest : List (Except StoreError α)),
          results = rows.map .ok ++ .error e :: rest ∧ ofRows .orderedList = failed e ∧
            ofRows .count = failed e ∧ ofRows .uniqueSet = failed e) ∧
      (ofRows .existence = match results with
        | [] => .ok (.existence false)
        | .ok _ :: _ => .ok (.existence true)
        | .error e :: _ => failed e) ∧
      (ofRows .single = match results with
        | [] => .error (.result .notFound)
        | [.ok a] => .ok (.single a)
        | .ok _ :: .ok _ :: _ => .error (.result .ambiguous)
        | .ok _ :: .error e :: _ | .error e :: _ => failed e) ∧
      (ofRows .nullableSingle = match results with
        | [] => .ok (.nullable none)
        | [.ok a] => .ok (.nullable (some a))
        | .ok _ :: .ok _ :: _ => .error (.result .ambiguous)
        | .ok _ :: .error e :: _ | .error e :: _ => failed e) ∧
      ofRows .nothing = .ok .nothing ∧
      (∃ r, ofRows .lazySequence = .ok (.lazy r) ∧ ∀ n,
        (r.calls (.replicate n .next)).1 =
          (LazyAnswer.ofResults context results ++ .replicate n (.next (.ok none))).take n) ∧
      (results = [] →
        (∀ shape ≠ .lazySequence, shaped shape .done = ofRows shape) ∧
          ∃ r r', shaped .lazySequence .done = .ok (.lazy r) ∧ ofRows .lazySequence = .ok (.lazy r') ∧
            ∀ n cs, ∃ later,
              (r.calls (.replicate n .isOpen ++ .next :: cs)).1 =
                .replicate n (.isOpen false) ++ .next (.ok none) :: later ∧
              (r'.calls (.replicate n .isOpen ++ .next :: cs)).1 =
                .replicate n (.isOpen true) ++ .next (.ok none) :: later) ∧
      ∀ n : UInt64,
        (∀ rows : List α, rows.length = n.toNat → ∀ shape ∈ [.count, .existence, .nothing],
          shaped shape (.count n) = shaped shape (.rows ⟨rows.map .row, []⟩)) ∧
        ∀ shape ∉ [.count, .existence, .nothing],
          shaped shape (.count n) = .error (.result (.unexpectedCount shape)) := by
  intro results shaped ofRows failed
  have hresults : (Rows.ofCursor ⟨script, []⟩ context).results = results := rfl
  have hempty : (Rows.empty context : Rows α).results = [] := rfl
  have hlist : ofRows .orderedList = Shaped.list <$> whole context results := read_orderedList _
  have hcount : ofRows .count =
      (fun rows => Shaped.count rows.length.toUInt64) <$> whole context results := read_count _
  have hset : ofRows .uniqueSet =
      (fun rows => Shaped.set (distinct rows)) <$> whole context results := read_uniqueSet _
  refine ⟨?_, read_existence _, read_single _, read_nullableSingle _, rfl, ?_, fun hnone => ⟨?_, ?_⟩,
    fun n => ⟨?_, ?_⟩⟩
  · rcases whole_cases context results with ⟨rows, hrows, hw⟩ | ⟨rows, e, rest, hrows, hw⟩
    · rw [hw] at hlist hcount hset
      refine .inl ⟨rows, hrows, hlist, hcount, fun symm trans => ⟨?_, distinct_newcomers symm trans rows⟩⟩
      rw [hset, ← distinct_eq_newcomers trans rows]
      rfl
    · rw [hw] at hlist hcount hset
      exact .inr ⟨rows, e, rest, hrows, hlist, hcount, hset⟩
  · exact ⟨_, rfl, fun n => Rows.calls_next n _⟩
  · intro shape hshape
    exact read_congr hshape (hempty.trans (hnone.symm.trans hresults.symm)) rfl
  · exact ⟨.empty context, .ofCursor ⟨script, []⟩ context, rfl, rfl, fun n cs =>
      ⟨_, Rows.calls_ended hempty n cs, Rows.calls_ended (hresults.trans hnone) n cs⟩⟩
  · intro rows hlen shape hshape
    exact ofReply_count hshape context hlen
  · intro shape hshape
    cases shape with
    | count | existence | nothing => exact absurd (by decide) hshape
    | _ => rfl

/-- A set of floats by the equality of the floating-point standard: a NaN comes as often as it came,
and of the two zeros there is the first. -/
theorem views_floats :
    let _ : BEq Binary64 := ⟨Binary64.same⟩
    let nan : Binary64 := ⟨0x7ff8000000000000⟩
    let one : Binary64 := ⟨0x3ff0000000000000⟩
    let minusZero : Binary64 := ⟨0x8000000000000000⟩
    let rows := [nan, one, minusZero, nan, one, ⟨0⟩]
    (∀ a b : Binary64, a == b → b == a) ∧ (∀ a b c : Binary64, a == b → b == c → a == c) ∧
      (uniqueSet.ofReply (.rows ⟨rows.map .row, []⟩) ⟨.atNamed, "all"⟩).result =
        .ok (.set [nan, one, minusZero, nan]) ∧
      Distinct rows [nan, one, minusZero, nan] := by
  intro _ nan one minusZero rows
  have hsymm : ∀ a b : Binary64, a == b → b == a := fun _ _ => Binary64.same_symm
  have htrans : ∀ a b c : Binary64, a == b → b == c → a == c := fun _ _ _ => Binary64.same_trans
  refine ⟨hsymm, htrans, ?_⟩
  rcases (views (rows.map .row) ⟨.atNamed, "all"⟩).1 with
    ⟨rows', hrows, -, -, hset⟩ | ⟨rows', e, rest, hrows, -⟩
  · rw [Cursor.results_map_row] at hrows
    cases (List.map_inj_right fun _ _ h => Except.ok.inj h).1 hrows
    obtain ⟨hset, hdistinct⟩ := hset hsymm htrans
    have hnew : newcomers [] rows = [nan, one, minusZero, nan] := by decide +kernel
    rw [hnew] at hset hdistinct
    exact ⟨hset, hdistinct⟩
  · rw [Cursor.results_map_row] at hrows
    have hfailed : Except.error e ∈ rows.map Except.ok := hrows ▸ by simp
    simp at hfailed

/-- A lazy sequence without a cursor is never open; one that holds an empty cursor is open until it is
asked for a row. -/
theorem isOpen_done_ne :
    ∃ r r' : Rows Value,
      (lazySequence.ofReply .done ⟨.atNamed, "all"⟩).result = .ok (.lazy r) ∧
        (lazySequence.ofReply (.rows ⟨[], []⟩) ⟨.atNamed, "all"⟩).result = .ok (.lazy r') ∧
        (r.calls [.isOpen]).1 = [.isOpen false] ∧ (r'.calls [.isOpen]).1 = [.isOpen true] :=
  ⟨.empty ⟨.atNamed, "all"⟩, .ofCursor ⟨[], []⟩ ⟨.atNamed, "all"⟩, rfl, rfl, rfl, rfl⟩

end ReturnShape

end QueryMethods
