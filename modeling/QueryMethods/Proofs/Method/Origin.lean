/-
Where the query of a method comes from, said of the declaration itself: the words of its name with the
number of its parameters make it a primitive; else the query text on it is its query, whatever its name
is; else its name is read, as a query that is declared with the shape of its subject.
-/
import QueryMethods.Method.Origin

namespace QueryMethods

namespace Primitive

theorem mem_all (op : Primitive) : op ∈ all := by
  cases op <;> decide

/-- No two primitives have the same words. -/
theorem eq_of_words {op op' : Primitive} (h : op.words = op'.words) : op = op' := by
  have hall : ∀ op ∈ all, ∀ op' ∈ all, op.words = op'.words → op = op' := by decide
  exact hall op op.mem_all op' op'.mem_all h

end Primitive

namespace Method

/-- The words of the method's name are, in either style, those of the primitive, and it has as many
parameters as the primitive takes arguments. -/
structure Names (m : Method) (op : Primitive) : Prop where
  words_eq : ∃ words, Name.words m.name = .ok words ∧ words.map Name.Word.folded = op.words
  length_eq : m.parameters.length = op.arity

/-- Where the query of a method comes from, read off its declaration. -/
inductive HasOrigin (m : Method) : Origin → Prop
  | builtin {op : Primitive} (hop : m.Names op) : HasOrigin m (.builtin op)
  | literal {query : String} (hnone : ∀ op, ¬m.Names op) (hq : m.query = some query) :
      HasOrigin m (.literal query)
  /-- A query that counts or looks for existence is declared with that shape. -/
  | derived {plan : Name.Plan} (hnone : ∀ op, ¬m.Names op) (hq : m.query = none)
      (hplan : Name.parse m.name = .ok plan) (hcount : plan.subject = .count → m.returns = .count)
      (hexists : plan.subject = .existence → m.returns = .existence) : HasOrigin m (.derived plan)

variable {m : Method}

/-- A name is that of one primitive at most. -/
theorem Names.unique {op op' : Primitive} (h : m.Names op) (h' : m.Names op') : op = op' := by
  obtain ⟨words, hwords, hop⟩ := h.words_eq
  obtain ⟨words', hwords', hop'⟩ := h'.words_eq
  rw [hwords] at hwords'
  cases hwords'
  exact Primitive.eq_of_words (hop.symm.trans hop')

theorem primitive?_eq_some_iff {op : Primitive} : m.primitive? = some op ↔ m.Names op := by
  unfold primitive?
  split
  · rename_i e hwords
    constructor
    · intro h
      cases h
    · intro h
      obtain ⟨words, hok, -⟩ := h.words_eq
      rw [hwords] at hok
      cases hok
  · rename_i words hwords
    have hnames (op : Primitive) :
        (op.arity == m.parameters.length && op.words == words.map Name.Word.folded) = true ↔ m.Names op := by
      rw [Bool.and_eq_true, beq_iff_eq, beq_iff_eq]
      constructor
      · rintro ⟨hlength, hop⟩
        exact ⟨⟨words, hwords, hop.symm⟩, hlength.symm⟩
      · intro h
        obtain ⟨words', hok, hop⟩ := h.words_eq
        rw [hwords] at hok
        cases hok
        exact ⟨h.length_eq.symm, hop.symm⟩
    constructor
    · intro h
      have hop := List.find?_some h
      exact (hnames op).1 hop
    · intro h
      have hsome : (Primitive.all.find? fun op =>
          op.arity == m.parameters.length && op.words == words.map Name.Word.folded).isSome :=
        List.find?_isSome.2 ⟨op, op.mem_all, (hnames op).2 h⟩
      obtain ⟨op', hfirst⟩ := Option.isSome_iff_exists.1 hsome
      have hop' := List.find?_some hfirst
      -- The primitive that is found first has the same words.
      rw [hfirst, ((hnames op').1 hop').unique h]

theorem primitive?_eq_none_iff : m.primitive? = none ↔ ∀ op, ¬m.Names op := by
  rw [Option.eq_none_iff_forall_ne_some]
  exact forall_congr' fun op => not_congr primitive?_eq_some_iff

theorem requiredShape_iff {subject : Name.Subject} {shape : ReturnShape} :
    (requiredShape subject).all (· == shape) ↔
      (subject = .count → shape = .count) ∧ (subject = .existence → shape = .existence) := by
  cases subject <;> cases shape <;> decide

theorem origin_eq_ok_iff {o : Origin} : m.origin = .ok o ↔ m.HasOrigin o := by
  constructor
  · intro h
    unfold origin at h
    split at h
    · rename_i op hop
      cases h
      exact .builtin (primitive?_eq_some_iff.1 hop)
    · rename_i query hnone hq
      cases h
      exact .literal (primitive?_eq_none_iff.1 hnone) hq
    · rename_i hnone hq
      split at h
      · cases h
      · rename_i plan hplan
        split at h <;> cases h
        rename_i hshape
        obtain ⟨hcount, hexists⟩ := requiredShape_iff.1 hshape
        exact .derived (primitive?_eq_none_iff.1 hnone) hq hplan hcount hexists
  · intro h
    unfold origin
    cases h with
    | builtin hop => rw [primitive?_eq_some_iff.2 hop]
    | literal hnone hq => rw [primitive?_eq_none_iff.2 hnone, hq]
    | derived hnone hq hplan hcount hexists =>
      rw [primitive?_eq_none_iff.2 hnone, hq]
      dsimp only
      rw [hplan]
      exact if_pos (requiredShape_iff.2 ⟨hcount, hexists⟩)

end Method

end QueryMethods
