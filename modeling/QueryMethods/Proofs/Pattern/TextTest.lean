/-
The tests of item stores: which pattern around a text without wildcards stands for which test.
-/
import QueryMethods.Grammar.Item

namespace QueryMethods.TextTest

theorem isPlain_append (s t : List Char) : isPlain (s ++ t) = (isPlain s && isPlain t) :=
  List.all_append

theorem beforePercent?_snoc {s : List Char} (hs : isPlain s) :
    beforePercent? (s ++ ['%']) = if s = [] then none else some (String.ofList s) := by
  unfold beforePercent?
  rw [List.getLast?_concat, List.dropLast_concat]
  cases s <;> simp [hs]

theorem beforePercent?_plain {s : List Char} (hs : isPlain s) : beforePercent? s = none := by
  unfold beforePercent?
  cases h : s.getLast? with
  | none => rfl
  | some c =>
    have hc := List.all_eq_true.1 hs c (List.mem_of_getLast? h)
    simp only [Bool.and_eq_true, bne_iff_ne, ne_eq] at hc
    split
    · rename_i hp
      cases hp
      exact absurd rfl hc.1
    · rfl

theorem beforePercent?_eq_some {s : List Char} {text : String} (h : beforePercent? s = some text) :
    s = text.toList ++ ['%'] ∧ text ≠ "" ∧ isPlain text.toList := by
  unfold beforePercent? at h
  split at h
  · rename_i hlast
    split at h
    · rename_i hplain
      cases h
      rw [Bool.and_eq_true, Bool.not_eq_true', List.isEmpty_eq_false_iff] at hplain
      refine ⟨?_, fun hempty => ?_, ?_⟩
      · obtain ⟨r, rfl⟩ := List.getLast?_eq_some_iff.1 hlast
        rw [String.toList_ofList, List.dropLast_concat]
      · apply hplain.1
        rw [← String.toList_ofList (l := s.dropLast), hempty]
        rfl
      · rw [String.toList_ofList]
        exact hplain.2
    · cases h
  · cases h

/-- The pattern that a test stands for. -/
def pattern : TextTest → String
  | .equals s => s
  | .beginsWith s => MatchKind.startsWith.around s
  | .contains s => MatchKind.contains.around s

/-- The test of a pattern says that pattern, and tells by its form whether this has a wildcard. -/
theorem ofPattern?_eq_some {p : String} {test : TextTest} (h : ofPattern? p = some test) :
    test.pattern = p ∧ (isPlain p.toList = true ↔ test = .equals p) := by
  unfold ofPattern? at h
  simp only at h
  split at h
  · rename_i hplain
    cases h
    exact ⟨rfl, fun _ => rfl, fun _ => hplain⟩
  · rename_i hplain
    split at h
    · rename_i r hp
      obtain ⟨text, hbefore, rfl⟩ := Option.map_eq_some_iff.1 h
      refine ⟨?_, fun h => absurd h hplain, nofun⟩
      rw [← String.toList_inj, hp, (beforePercent?_eq_some hbefore).1]
      simp [pattern, MatchKind.around]
    · obtain ⟨text, hbefore, rfl⟩ := Option.map_eq_some_iff.1 h
      refine ⟨?_, fun h => absurd h hplain, nofun⟩
      rw [← String.toList_inj, (beforePercent?_eq_some hbefore).1]
      simp [pattern, MatchKind.around]

/-- The text that a test looks for. -/
def text : TextTest → String
  | .equals s => s
  | .beginsWith s => s
  | .contains s => s

theorem isPlain_text {p : String} {test : TextTest} (h : ofPattern? p = some test) :
    isPlain test.text.toList := by
  unfold ofPattern? at h
  simp only at h
  split at h
  · rename_i hplain
    cases h
    exact hplain
  · split at h
    · obtain ⟨text, hbefore, rfl⟩ := Option.map_eq_some_iff.1 h
      exact (beforePercent?_eq_some hbefore).2.2
    · obtain ⟨text, hbefore, rfl⟩ := Option.map_eq_some_iff.1 h
      exact (beforePercent?_eq_some hbefore).2.2

/-- A test looks for its pattern without the percent signs. -/
theorem text_eq_of_ofPattern? {p : String} {test : TextTest} (h : ofPattern? p = some test) :
    test.text = String.ofList (p.toList.filter (· != '%')) := by
  have hkeep : test.text.toList.filter (· != '%') = test.text.toList := by
    refine List.filter_eq_self.2 fun c hc => ?_
    have hplain := List.all_eq_true.1 (isPlain_text h) c hc
    exact (Bool.and_eq_true_iff.1 hplain).1
  obtain ⟨rfl, -⟩ := ofPattern?_eq_some h
  rw [← String.toList_inj, String.toList_ofList]
  cases test with
  | equals s => exact hkeep.symm
  | beginsWith s => simpa [pattern, MatchKind.around, text] using hkeep.symm
  | contains s => simpa [pattern, MatchKind.around, text] using hkeep.symm

/-- The test of the pattern that looks for a text without wildcards: texts at the end of a field
cannot be tested for, and nothing cannot be looked for with percent signs. -/
theorem ofPattern?_around (kind : MatchKind) {s : String} (hs : isPlain s.toList) :
    ofPattern? (kind.around s) =
      match kind with
      | .whole => some (.equals s)
      | .startsWith => if s.toList = [] then none else some (.beginsWith s)
      | .contains => if s.toList = [] then none else some (.contains s)
      | .endsWith => none := by
  have hpercent : isPlain ['%'] = false := rfl
  cases kind with
  | whole => simp [MatchKind.around, ofPattern?, hs]
  | startsWith =>
    have hl : (MatchKind.startsWith.around s).toList = s.toList ++ ['%'] := by
      simp [MatchKind.around]
    simp only [ofPattern?, hl, isPlain_append, hpercent, Bool.and_false, Bool.false_eq_true, if_false]
    rw [beforePercent?_snoc hs]
    cases h : s.toList with
    | nil => rfl
    | cons c r =>
      have hc : c ≠ '%' := by
        rintro rfl
        rw [h] at hs
        cases hs
      simp only [List.cons_append, reduceCtorEq, if_false]
      split
      · rename_i heq
        cases heq
        exact absurd rfl hc
      · rw [← h, String.ofList_toList]; rfl
  | contains =>
    have hl : (MatchKind.contains.around s).toList = '%' :: (s.toList ++ ['%']) := by
      simp [MatchKind.around]
    have hplain : isPlain ('%' :: (s.toList ++ ['%'])) = false := rfl
    simp only [ofPattern?, hl, hplain, Bool.false_eq_true, if_false]
    rw [beforePercent?_snoc hs, String.ofList_toList]
    split <;> rfl
  | endsWith =>
    have hl : (MatchKind.endsWith.around s).toList = '%' :: s.toList := by simp [MatchKind.around]
    have hplain : isPlain ('%' :: s.toList) = false := rfl
    simp only [ofPattern?, hl, hplain, Bool.false_eq_true, if_false]
    rw [beforePercent?_plain hs]; rfl

end QueryMethods.TextTest
