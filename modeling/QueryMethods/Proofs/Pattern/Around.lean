/-
Patterns around a text. A segment that looks for a text makes a pattern of it with percent signs next
to it, and the pattern finds what the text stands for as a pattern. A text without wildcards stands for
itself alone, so it is found as it is. A text with a wildcard is not, and no other pattern could find it:
nothing takes the meaning of a wildcard away, so every pattern also accepts some text without any.
-/
import QueryMethods.Grammar.Item
import QueryMethods.Name.Meaning
import QueryMethods.Proofs.Pattern.Language

namespace QueryMethods

/-! ## Parts of a pattern -/

namespace Pattern

variable {p q s : List Char}

/-- Patterns one after the other accept texts one after the other. -/
theorem accepts_append_iff :
    Accepts (p ++ q) s ↔ ∃ u t, s = u ++ t ∧ Accepts p u ∧ Accepts q t := by
  induction p generalizing s with
  | nil =>
    simp only [List.nil_append, accepts_nil_iff]
    constructor
    · exact fun h => ⟨[], s, rfl, rfl, h⟩
    · rintro ⟨_, t, rfl, rfl, h⟩
      exact h
  | cons c p ih =>
    rw [List.cons_append]
    by_cases hrun : c = '%'
    · subst hrun
      simp only [accepts_run_iff, ih]
      constructor
      · rintro ⟨r, _, rfl, u, t, rfl, hu, ht⟩
        exact ⟨r ++ u, t, (List.append_assoc r u t).symm, ⟨r, u, rfl, hu⟩, ht⟩
      · rintro ⟨_, t, rfl, ⟨r, u, rfl, hu⟩, ht⟩
        exact ⟨r, u ++ t, List.append_assoc r u t, u, t, rfl, hu, ht⟩
    · by_cases hone : c = '_'
      · subst hone
        simp only [accepts_one_iff, ih]
        constructor
        · rintro ⟨x, _, rfl, u, t, rfl, hu, ht⟩
          exact ⟨x :: u, t, rfl, ⟨x, u, rfl, hu⟩, ht⟩
        · rintro ⟨_, t, rfl, ⟨x, u, rfl, hu⟩, ht⟩
          exact ⟨x, u ++ t, rfl, u, t, rfl, hu, ht⟩
      · simp only [accepts_char_iff hrun hone, ih]
        constructor
        · rintro ⟨_, rfl, u, t, rfl, hu, ht⟩
          exact ⟨c :: u, t, rfl, ⟨u, rfl, hu⟩, ht⟩
        · rintro ⟨_, t, rfl, ⟨u, rfl, hu⟩, ht⟩
          exact ⟨u ++ t, rfl, u, t, rfl, hu, ht⟩

theorem accepts_percent (s : List Char) : Accepts ['%'] s := by
  simpa using Accepts.run s .nil

/-- A pattern without wildcards stands for itself. -/
theorem accepts_plain_iff (h : TextTest.isPlain p) : Accepts p s ↔ s = p := by
  induction p generalizing s with
  | nil => exact accepts_nil_iff
  | cons c p ih =>
    obtain ⟨hc, hp⟩ := Bool.and_eq_true_iff.1 h
    obtain ⟨hrun, hone⟩ : c ≠ '%' ∧ c ≠ '_' := by simpa using hc
    simp only [accepts_char_iff hrun hone, ih hp, exists_eq_right]

/-- Every pattern accepts a text without wildcards: nothing for each percent sign and a letter for each
underscore. -/
theorem exists_plain_accepts (p : List Char) : ∃ s, Accepts p s ∧ TextTest.isPlain s := by
  induction p with
  | nil => exact ⟨[], .nil, rfl⟩
  | cons c p ih =>
    obtain ⟨s, hs, hplain⟩ := ih
    by_cases hrun : c = '%'
    · subst hrun
      exact ⟨s, .run [] hs, hplain⟩
    · by_cases hone : c = '_'
      · subst hone
        exact ⟨'a' :: s, .one 'a' hs, hplain⟩
      · have hc : (c != '%' && c != '_') = true := by simp [hrun, hone]
        exact ⟨c :: s, .char hrun hone hs, Bool.and_eq_true_iff.2 ⟨hc, hplain⟩⟩

end Pattern

/-! ## Texts in a field -/

namespace MatchKind

/-- The text stands where it is looked for. -/
def Finds (kind : MatchKind) (text field : List Char) : Prop :=
  match kind with
  | .whole => text = field
  | .contains => text <:+: field
  | .startsWith => text <+: field
  | .endsWith => text <:+ field

variable {kind : MatchKind} {text field : List Char}

theorem Finds.subset (h : kind.Finds text field) : text ⊆ field := by
  cases kind with
  | whole =>
    cases h
    exact List.Subset.refl _
  | contains => exact List.IsInfix.subset h
  | startsWith => exact List.IsPrefix.subset h
  | endsWith => exact List.IsSuffix.subset h

/-- A field without wildcards has no text with a wildcard in it. -/
theorem Finds.isPlain (h : kind.Finds text field) (hfield : TextTest.isPlain field) :
    TextTest.isPlain text :=
  List.all_eq_true.2 fun c hc => List.all_eq_true.1 hfield c (h.subset hc)

/-- The pattern around a text accepts the fields in which something is found that the text stands for. -/
theorem accepts_around_iff (kind : MatchKind) (v : String) :
    Pattern.Accepts (kind.around v).toList field ↔
      ∃ text, Pattern.Accepts v.toList text ∧ kind.Finds text field := by
  cases kind with
  | whole => simp [around, Finds]
  | contains =>
    have hl : (contains.around v).toList = '%' :: (v.toList ++ ['%']) := by simp [around]
    rw [hl, Pattern.accepts_run_iff]
    constructor
    · rintro ⟨before, _, rfl, h⟩
      obtain ⟨text, after, rfl, htext, -⟩ := Pattern.accepts_append_iff.1 h
      exact ⟨text, htext, before, after, List.append_assoc before text after⟩
    · rintro ⟨text, htext, before, after, rfl⟩
      refine ⟨before, text ++ after, List.append_assoc before text after, ?_⟩
      exact Pattern.accepts_append_iff.2 ⟨text, after, rfl, htext, Pattern.accepts_percent after⟩
  | startsWith =>
    have hl : (startsWith.around v).toList = v.toList ++ ['%'] := by simp [around]
    rw [hl, Pattern.accepts_append_iff]
    constructor
    · rintro ⟨text, after, rfl, htext, -⟩
      exact ⟨text, htext, after, rfl⟩
    · rintro ⟨text, htext, after, rfl⟩
      exact ⟨text, after, rfl, htext, Pattern.accepts_percent after⟩
  | endsWith =>
    have hl : (endsWith.around v).toList = '%' :: v.toList := by simp [around]
    rw [hl, Pattern.accepts_run_iff]
    constructor
    · rintro ⟨before, text, rfl, htext⟩
      exact ⟨text, htext, before, rfl⟩
    · rintro ⟨text, htext, before, rfl⟩
      exact ⟨before, text, rfl, htext⟩

end MatchKind

/-! ## Segments that look for a text -/

namespace Name.Segment

/-- The comparison of a segment that looks for a text. It accepts the fields in which something is found
that the text stands for as a pattern. For a text without wildcards these are the fields in which the text
itself is found; for any other text there is no pattern that accepts these. -/
theorem accepts_matching (field : String) (kind : MatchKind) (v : String) :
    ∃ p : String,
      (condition ⟨field, .matching kind⟩).run' [.str v] = .ok (.compare field .like (.str p)) ∧
      (∀ s : String, Pattern.Accepts p.toList s.toList ↔
        ∃ text, Pattern.Accepts v.toList text ∧ kind.Finds text s.toList) ∧
      (TextTest.isPlain v.toList →
        ∀ s : String, Pattern.Accepts p.toList s.toList ↔ kind.Finds v.toList s.toList) ∧
      (¬TextTest.isPlain v.toList → ∀ q : String, ∃ s : String,
        Pattern.Accepts q.toList s.toList ∧ ¬kind.Finds v.toList s.toList) := by
  refine ⟨kind.around v, rfl, fun s => kind.accepts_around_iff v, fun hv s => ?_, fun hv q => ?_⟩
  · simp only [kind.accepts_around_iff v, Pattern.accepts_plain_iff hv, exists_eq_left]
  · obtain ⟨s, hs, hplain⟩ := Pattern.exists_plain_accepts q.toList
    refine ⟨String.ofList s, ?_, fun hfinds => hv ?_⟩
    · rwa [String.toList_ofList]
    · rw [String.toList_ofList] at hfinds
      exact hfinds.isPlain hplain

/-- An underscore is found in a text that has none. -/
theorem accepts_underscore :
    (condition ⟨"name", .matching .contains⟩).run' [.str "_"] =
        .ok (.compare "name" .like (.str "%_%")) ∧
      Pattern.Accepts "%_%".toList "a".toList ∧ ¬MatchKind.contains.Finds "_".toList "a".toList := by
  refine ⟨rfl, .run [] (.one 'a' (.run [] .nil)), fun h => ?_⟩
  have := MatchKind.Finds.subset h (List.mem_singleton_self '_')
  exact absurd this (by decide)

end Name.Segment

end QueryMethods
