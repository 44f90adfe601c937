/-
Lists between separators: what is said of a list that is put together with a separator between its
parts, and of the parts that a list is split into.
-/
import Mathlib.Data.List.Find

namespace QueryMethods

variable {α : Type} {separator a : α}

/-! ## Putting together -/

/-- A list between separators begins with its first part, and every other part has one before it. -/
theorem intercalate_cons (separator first : List α) (others : List (List α)) :
    separator.intercalate (first :: others) = first ++ others.flatMap (separator ++ ·) := by
  induction others generalizing first with
  | nil => rw [List.intercalate_singleton, List.flatMap_nil, List.append_nil]
  | cons second others ih =>
    rw [List.intercalate_cons_cons, ih, List.flatMap_cons, List.append_assoc, List.append_assoc]

theorem mem_intercalate {groups : List (List α)} (h : a ∈ [separator].intercalate groups) :
    a = separator ∨ ∃ group ∈ groups, a ∈ group := by
  induction groups with
  | nil => cases h
  | cons first others ih =>
    cases others with
    | nil =>
      rw [List.intercalate_singleton] at h
      exact Or.inr ⟨first, List.mem_cons_self, h⟩
    | cons second others =>
      rw [List.intercalate_cons_cons, List.mem_append, List.mem_append, List.mem_singleton] at h
      rcases h with (h | h) | h
      · exact Or.inr ⟨first, List.mem_cons_self, h⟩
      · exact Or.inl h
      · rcases ih h with h | ⟨group, hg, ha⟩
        · exact Or.inl h
        · exact Or.inr ⟨group, List.mem_cons_of_mem first hg, ha⟩

theorem infix_intercalate {group : List α} {groups : List (List α)} (h : group ∈ groups) :
    group <:+: [separator].intercalate groups := by
  induction groups with
  | nil => cases h
  | cons first others ih =>
    cases others with
    | nil =>
      simp only [List.mem_singleton.1 h, List.intercalate_singleton, List.infix_rfl]
    | cons second others =>
      rw [List.intercalate_cons_cons]
      rcases List.mem_cons.1 h with rfl | h
      · rw [List.append_assoc]
        exact (List.prefix_append _ _).isInfix
      · exact (ih h).trans (List.suffix_append _ _).isInfix

theorem intercalate_ne_nil {groups : List (List α)} (hne : groups ≠ []) (h : ∀ g ∈ groups, g ≠ []) :
    [separator].intercalate groups ≠ [] := by
  obtain ⟨first, others, rfl⟩ := List.exists_cons_of_ne_nil hne
  have hfirst := h first List.mem_cons_self
  cases others with
  | nil => rw [List.intercalate_singleton]; exact hfirst
  | cons second others => rw [List.intercalate_cons_cons]; simp [hfirst]

theorem filterMap_intercalate {β : Type} {p : α → Option β} {separator : List α}
    (h : separator.filterMap p = []) (parts : List (List α)) :
    (separator.intercalate parts).filterMap p = parts.flatMap (List.filterMap p) := by
  induction parts with
  | nil => rfl
  | cons part parts ih =>
    cases parts with
    | nil => rw [List.intercalate_singleton, List.flatMap_singleton]
    | cons other parts =>
      rw [List.intercalate_cons_cons, List.filterMap_append, List.filterMap_append, h, ih,
        List.append_nil, ← List.flatMap_cons]

theorem flatMap_intercalate {β : Type} (f : α → List β) (separator : List α)
    (parts : List (List α)) :
    (separator.intercalate parts).flatMap f =
      (separator.flatMap f).intercalate (parts.map (List.flatMap f)) := by
  induction parts with
  | nil => rfl
  | cons part parts ih =>
    cases parts with
    | nil => rw [List.intercalate_singleton, List.map_singleton, List.intercalate_singleton]
    | cons other parts =>
      rw [List.intercalate_cons_cons, List.flatMap_append, List.flatMap_append, ih, List.map_cons,
        List.map_cons, List.map_cons, List.intercalate_cons_cons]

/-! ## Splitting -/

theorem splitOnP_map {β : Type} (f : α → β) (p : β → Bool) (l : List α) :
    (l.map f).splitOnP p = (l.splitOnP (p ∘ f)).map (List.map f) := by
  induction l with
  | nil => rfl
  | cons a l ih =>
    rw [List.map_cons, List.splitOnP_cons_eq_if_modifyHead, List.splitOnP_cons_eq_if_modifyHead, ih]
    cases hp : p (f a) with
    | true => simp [hp]
    | false =>
      simp only [Function.comp_apply, hp]
      cases l.splitOnP (p ∘ f) <;> rfl

theorem mem_of_mem_splitOnP {p : α → Bool} {l group : List α}
    (hg : group ∈ l.splitOnP p) (ha : a ∈ group) : a ∈ l := by
  induction l generalizing group with
  | nil => rw [List.splitOnP_nil, List.mem_singleton] at hg; rw [hg] at ha; cases ha
  | cons b l ih =>
    rw [List.splitOnP_cons_eq_if_modifyHead] at hg
    split at hg
    · rcases List.mem_cons.1 hg with rfl | hg
      · cases ha
      · exact List.mem_cons_of_mem b (ih hg ha)
    · cases hl : l.splitOnP p with
      | nil => rw [hl] at hg; cases hg
      | cons first others =>
        rw [hl] at hg ih
        rcases List.mem_cons.1 hg with rfl | hg
        · rcases List.mem_cons.1 ha with rfl | ha
          · exact List.mem_cons_self
          · exact List.mem_cons_of_mem b (ih List.mem_cons_self ha)
        · exact List.mem_cons_of_mem b (ih (List.mem_cons_of_mem first hg) ha)

theorem infix_of_mem_splitOn [BEq α] [LawfulBEq α] {l part : List α}
    (h : part ∈ l.splitOn separator) : part <:+: l := by
  have hpart : part <:+: [separator].intercalate (l.splitOn separator) := infix_intercalate h
  rwa [List.intercalate_splitOn] at hpart

/-- The parts of a list are without its separator. -/
theorem not_mem_of_mem_splitOn [BEq α] [LawfulBEq α] {l part : List α}
    (h : part ∈ l.splitOn separator) : separator ∉ part := by
  rw [List.splitOn_eq_splitOnP] at h
  induction l generalizing part with
  | nil =>
    rw [List.splitOnP_nil, List.mem_singleton] at h
    rw [h]
    exact List.not_mem_nil
  | cons x l ih =>
    rw [List.splitOnP_cons_eq_if_modifyHead] at h
    split at h
    · rcases List.mem_cons.1 h with rfl | h
      · exact List.not_mem_nil
      · exact ih h
    · rename_i hx
      cases hl : l.splitOnP (· == separator) with
      | nil => rw [hl] at h; cases h
      | cons first others =>
        rw [hl] at h ih
        rcases List.mem_cons.1 h with rfl | h
        · refine mt List.mem_cons.1 (not_or.2 ⟨?_, ih List.mem_cons_self⟩)
          rintro rfl
          exact hx (beq_self_eq_true separator)
        · exact ih (List.mem_cons_of_mem first h)

end QueryMethods
