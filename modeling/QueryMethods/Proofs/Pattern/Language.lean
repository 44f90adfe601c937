/-
The language of a LIKE pattern: the texts that it stands for. A run of percent signs stands for what
one of them stands for, so a pattern has the language of its collapsed form, in which no two of them
meet.
-/
import QueryMethods.Pattern

namespace QueryMethods.Pattern

/-- The texts that a pattern stands for. -/
inductive Accepts : List Char → List Char → Prop
  | nil : Accepts [] []
  | run {p t : List Char} (s : List Char) (h : Accepts p t) : Accepts ('%' :: p) (s ++ t)
  | one {p t : List Char} (c : Char) (h : Accepts p t) : Accepts ('_' :: p) (c :: t)
  | char {p t : List Char} {c : Char} (hrun : c ≠ '%') (hone : c ≠ '_') (h : Accepts p t) :
      Accepts (c :: p) (c :: t)

variable {p s : List Char}

theorem accepts_nil_iff : Accepts [] s ↔ s = [] := by
  constructor
  · intro h
    cases h
    rfl
  · rintro rfl
    exact .nil

theorem accepts_run_iff : Accepts ('%' :: p) s ↔ ∃ u t, s = u ++ t ∧ Accepts p t := by
  constructor
  · intro h
    cases h with
    | run u h => exact ⟨u, _, rfl, h⟩
    | char hrun _ _ => exact absurd rfl hrun
  · rintro ⟨u, t, rfl, h⟩
    exact .run u h

theorem accepts_one_iff : Accepts ('_' :: p) s ↔ ∃ c t, s = c :: t ∧ Accepts p t := by
  constructor
  · intro h
    cases h with
    | one c h => exact ⟨c, _, rfl, h⟩
    | char _ hone _ => exact absurd rfl hone
  · rintro ⟨c, t, rfl, h⟩
    exact .one c h

theorem accepts_char_iff {c : Char} (hrun : c ≠ '%') (hone : c ≠ '_') :
    Accepts (c :: p) s ↔ ∃ t, s = c :: t ∧ Accepts p t := by
  constructor
  · intro h
    cases h with
    | run _ _ => exact absurd rfl hrun
    | one _ _ => exact absurd rfl hone
    | char _ _ h => exact ⟨_, rfl, h⟩
  · rintro ⟨t, rfl, h⟩
    exact .char hrun hone h

/-! ## Runs of percent signs -/

/-- The pattern with one percent sign in the place of each run of them. -/
def collapse : List Char → List Char
  | [] => []
  | '%' :: '%' :: r => collapse ('%' :: r)
  | c :: r => c :: collapse r

/-- Two percent signs part a text into three, of which the first two are one. -/
theorem accepts_run_run_iff : Accepts ('%' :: '%' :: p) s ↔ Accepts ('%' :: p) s := by
  simp only [accepts_run_iff]
  constructor
  · rintro ⟨u, _, rfl, v, t, rfl, h⟩
    exact ⟨u ++ v, t, (List.append_assoc u v t).symm, h⟩
  · rintro ⟨u, t, rfl, h⟩
    exact ⟨[], u ++ t, rfl, u, t, rfl, h⟩

/-- What comes first is kept in front of patterns of one language. -/
theorem accepts_cons_congr {q : List Char} (c : Char) (h : ∀ t, Accepts p t ↔ Accepts q t) :
    Accepts (c :: p) s ↔ Accepts (c :: q) s := by
  by_cases hrun : c = '%'
  · subst hrun
    simp only [accepts_run_iff, h]
  · by_cases hone : c = '_'
    · subst hone
      simp only [accepts_one_iff, h]
    · simp only [accepts_char_iff hrun hone, h]

theorem accepts_collapse_iff : Accepts (collapse p) s ↔ Accepts p s := by
  fun_induction collapse p generalizing s with
  | case1 => exact Iff.rfl
  | case2 r ih => rw [ih, accepts_run_run_iff]
  | case3 c r _ ih => exact accepts_cons_congr c fun t => ih

theorem head?_collapse (p : List Char) : (collapse p).head? = p.head? := by
  fun_induction collapse p with
  | case1 => rfl
  | case2 r ih => exact ih
  | case3 => rfl

theorem collapse_eq_nil_iff : collapse p = [] ↔ p = [] := by
  rw [← List.head?_eq_none_iff, head?_collapse, List.head?_eq_none_iff]

end QueryMethods.Pattern
