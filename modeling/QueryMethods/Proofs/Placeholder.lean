/-
Placeholder names are identifiers and are handed out once: a fresh name is none of those that are
taken, so the names that are assigned one after the other are all different. Each is the identifier
nearest to the name that was asked for, or that with the least number that makes it free; the search for
the number passes every taken name at most once.
-/
import Mathlib.Data.Nat.Init
import Mathlib.Order.Bounds.Defs
import QueryMethods.Filter.Inline
import QueryMethods.Placeholder

namespace QueryMethods.Placeholder

/-! ## Numbered names -/

theorem toList_numbered (base : String) (n : Nat) :
    (numbered base n).toList = base.toList ++ '_' :: Nat.toDigits 10 n := by
  simp [numbered, Nat.toString_eq_repr, Nat.repr_eq_ofList_toDigits]

theorem numbered_inj {base : String} {m n : Nat} (h : numbered base m = numbered base n) : m = n := by
  have hlist := congrArg String.toList h
  rw [toList_numbered, toList_numbered, List.append_cancel_left_eq, List.cons.injEq] at hlist
  rw [← Nat.ofDigitChars_ten_toDigits (n := m), hlist.2, Nat.ofDigitChars_ten_toDigits]

/-- The numbered name that the search ends at is free, and all those that it passed are taken. -/
theorem firstFree_spec (base : String) (taken : List String) (n : Nat) :
    n ≤ firstFree base taken n ∧ numbered base (firstFree base taken n) ∉ taken ∧
      ∀ i, n ≤ i → i < firstFree base taken n → numbered base i ∈ taken := by
  fun_induction firstFree base taken n with
  | case1 taken n h ih =>
    obtain ⟨hle, hfree, hpassed⟩ := ih
    -- A name that the search has passed is erased; it is not found again, as numbers tell names apart.
    refine ⟨by omega, fun hmem => ?_, fun i hn hi => ?_⟩
    · refine hfree ((List.mem_erase_of_ne fun heq => ?_).2 hmem)
      have := numbered_inj heq
      omega
    · rcases Nat.eq_or_lt_of_le hn with rfl | hn
      · exact h
      · exact List.mem_of_mem_erase (hpassed i hn hi)
  | case2 taken n h => exact ⟨Nat.le_refl n, h, fun i hn hi => by omega⟩

/-! ## Fresh names -/

theorem fresh_cases (taken : List String) (name : String) :
    (identifier name ∉ taken ∧ fresh taken name = identifier name) ∨
      (identifier name ∈ taken ∧
        fresh taken name = numbered (identifier name) (firstFree (identifier name) taken 1)) := by
  by_cases h : identifier name ∈ taken
  · exact Or.inr ⟨h, if_pos h⟩
  · exact Or.inl ⟨h, if_neg h⟩

theorem fresh_not_mem (taken : List String) (name : String) : fresh taken name ∉ taken := by
  rcases fresh_cases taken name with ⟨h, heq⟩ | ⟨-, heq⟩
  · rw [heq]; exact h
  · rw [heq]; exact (firstFree_spec (identifier name) taken 1).2.1

theorem isNameChar_of_mem_identifier {name : String} {c : Char} (h : c ∈ (identifier name).toList) :
    Params.isNameChar c := by
  have hbody : ∀ c ∈ name.toList.map fun c => if c.isAlphanum then c else '_',
      Params.isNameChar c := by
    intro c hc
    obtain ⟨x, -, rfl⟩ := List.mem_map.1 hc
    split
    · rename_i hx; rw [Params.isNameChar, hx]; rfl
    · rfl
  rw [identifier, String.toList_ofList] at h
  split at h
  · rcases List.mem_cons.1 h with rfl | h
    · rfl
    · exact hbody c h
  · exact hbody c h

theorem isNameChar_of_mem_fresh {taken : List String} {name : String} {c : Char}
    (h : c ∈ (fresh taken name).toList) : Params.isNameChar c := by
  rcases fresh_cases taken name with ⟨-, heq⟩ | ⟨-, heq⟩
  · rw [heq] at h
    exact isNameChar_of_mem_identifier h
  · rw [heq, toList_numbered] at h
    rcases List.mem_append.1 h with h | h
    · exact isNameChar_of_mem_identifier h
    · rcases List.mem_cons.1 h with rfl | h
      · rfl
      · have hdigit := Nat.isDigit_of_mem_toDigits (by decide) (by decide) h
        rw [Params.isNameChar, Char.isAlphanum, hdigit, Bool.or_true, Bool.true_or]

/-! ## Identifiers -/

/-- A name that is not empty, does not begin with a digit and has only name characters. -/
structure IsIdentifier (name : String) : Prop where
  head : ∃ c r, name.toList = c :: r ∧ c.isDigit = false
  chars : ∀ c ∈ name.toList, Params.isNameChar c

theorem isIdentifier_identifier (name : String) : IsIdentifier (identifier name) where
  chars _ := isNameChar_of_mem_identifier
  head := by
    rw [identifier, String.toList_ofList]
    split
    · exact ⟨'p', _, rfl, rfl⟩
    · rename_i hbody
      cases h : name.toList.map fun c => if c.isAlphanum then c else '_' with
      | nil => rw [h] at hbody; exact absurd rfl hbody
      | cons c r =>
        rw [h] at hbody
        exact ⟨c, r, rfl, Bool.eq_false_iff.2 hbody⟩

theorem isIdentifier_fresh (taken : List String) (name : String) :
    IsIdentifier (fresh taken name) where
  chars _ := isNameChar_of_mem_fresh
  head := by
    obtain ⟨c, r, hhead, hc⟩ := (isIdentifier_identifier name).head
    rcases fresh_cases taken name with ⟨-, heq⟩ | ⟨-, heq⟩
    · rw [heq]
      exact ⟨c, r, hhead, hc⟩
    · -- A number goes behind the identifier, so the first character stays.
      rw [heq, toList_numbered, hhead]
      exact ⟨c, _, rfl, hc⟩

/-! ## Assigned names -/

theorem not_mem_of_mem_assign {taken names : List String} {name : String}
    (h : name ∈ assign taken names) : name ∉ taken := by
  induction names generalizing taken with
  | nil => cases h
  | cons first names ih =>
    rcases List.mem_cons.1 h with rfl | h
    · exact fresh_not_mem taken first
    · exact fun hmem => ih h (List.mem_append_left _ hmem)

theorem nodup_assign (taken names : List String) : (assign taken names).Nodup := by
  induction names generalizing taken with
  | nil => exact List.nodup_nil
  | cons first names ih =>
    rw [assign, List.nodup_cons]
    constructor
    · intro h
      exact not_mem_of_mem_assign h (List.mem_append_right taken List.mem_cons_self)
    · exact ih _

theorem length_assign (taken names : List String) : (assign taken names).length = names.length := by
  induction names generalizing taken with
  | nil => rfl
  | cons first names ih => rw [assign, List.length_cons, List.length_cons, ih]

theorem isIdentifier_of_mem_assign {taken names : List String} {name : String}
    (h : name ∈ assign taken names) : IsIdentifier name := by
  induction names generalizing taken with
  | nil => cases h
  | cons first names ih =>
    rcases List.mem_cons.1 h with rfl | h
    · exact isIdentifier_fresh taken first
    · exact ih h

theorem isNameChar_of_mem_assign {taken names : List String} {name : String}
    (h : name ∈ assign taken names) : ∀ c ∈ name.toList, Params.isNameChar c :=
  (isIdentifier_of_mem_assign h).chars

/-! ## Searches -/

/-- Asks for one numbered name after the other, from `n` up, until one is not taken. -/
inductive Search (base : String) (taken : List String) : Nat → Nat → Prop
  | free {n : Nat} (h : numbered base n ∉ taken) : Search base taken n n
  | next {n m : Nat} (h : numbered base n ∈ taken) (hrest : Search base taken (n + 1) m) :
      Search base taken n m

section

variable {base : String} {taken : List String} {n m : Nat}

theorem Search.isLeast (h : Search base taken n m) :
    IsLeast {i | n ≤ i ∧ numbered base i ∉ taken} m := by
  induction h with
  | free hfree => exact ⟨⟨Nat.le_refl _, hfree⟩, fun i hi => hi.1⟩
  | next htaken _ ih =>
    obtain ⟨⟨hle, hfree⟩, hleast⟩ := ih
    refine ⟨⟨by omega, hfree⟩, fun i ⟨hi, hifree⟩ => hleast ⟨?_, hifree⟩⟩
    rcases Nat.eq_or_lt_of_le hi with rfl | hi
    · exact absurd htaken hifree
    · exact hi

theorem search_of_passed (hle : n ≤ m) (hfree : numbered base m ∉ taken)
    (hpassed : ∀ i, n ≤ i → i < m → numbered base i ∈ taken) : Search base taken n m := by
  -- The induction is on the numbers between the start and the end, which all are taken.
  induction hle using Nat.decreasingInduction with
  | self => exact .free hfree
  | of_succ n hn ih =>
    exact .next (hpassed n (Nat.le_refl n) hn) (ih fun i hi => hpassed i (Nat.le_of_succ_le hi))

theorem search_firstFree (base : String) (taken : List String) (n : Nat) :
    Search base taken n (firstFree base taken n) := by
  obtain ⟨hle, hfree, hpassed⟩ := firstFree_spec base taken n
  exact search_of_passed hle hfree hpassed

/-- A search is over at the latest when each taken name was passed. -/
theorem firstFree_le (base : String) (taken : List String) (n : Nat) :
    firstFree base taken n ≤ n + taken.length := by
  fun_induction firstFree base taken n with
  | case1 taken n h ih =>
    have := List.length_pos_of_mem h
    rw [List.length_erase_of_mem h] at ih
    omega
  | case2 taken n h => exact Nat.le_add_right n taken.length

end

/-! ## Calls -/

/-- What a call gives, when the earlier names were handed out before it: the identifier itself, if it is
not among them, or else the identifier with the least number from one up with which it is not. The search
for this number ends after one question for each earlier name and one more. -/
inductive HandsOut (earlier : List String) (name : String) : String → Prop
  | plain (h : identifier name ∉ earlier) : HandsOut earlier name (identifier name)
  | numbered {n : Nat} (h : identifier name ∈ earlier) (hsearch : Search (identifier name) earlier 1 n)
      (hle : n ≤ 1 + earlier.length)
      (hleast : IsLeast {i | 1 ≤ i ∧ numbered (identifier name) i ∉ earlier} n) :
      HandsOut earlier name (numbered (identifier name) n)

theorem handsOut_fresh (earlier : List String) (name : String) :
    HandsOut earlier name (fresh earlier name) := by
  rcases fresh_cases earlier name with ⟨h, heq⟩ | ⟨h, heq⟩
  · rw [heq]
    exact .plain h
  · have hsearch := search_firstFree (identifier name) earlier 1
    rw [heq]
    exact .numbered h hsearch (firstFree_le _ _ _) hsearch.isLeast

/-- Calls one after the other, each after the names that were handed out before it. -/
inductive Calls : List String → List String → List String → Prop
  | nil {earlier : List String} : Calls earlier [] []
  | cons {earlier names rest : List String} {name given : String} (hfirst : HandsOut earlier name given)
      (hrest : Calls (earlier ++ [given]) names rest) : Calls earlier (name :: names) (given :: rest)

theorem calls_assign (earlier names : List String) : Calls earlier names (assign earlier names) := by
  induction names generalizing earlier with
  | nil => exact .nil
  | cons name names ih => exact .cons (handsOut_fresh earlier name) (ih _)

theorem identifier_of_isIdentifier {name : String} (h : IsIdentifier name) : identifier name = name := by
  obtain ⟨c, r, hhead, hc⟩ := h.head
  have hbody : (name.toList.map fun c => if c.isAlphanum then c else '_') = name.toList := by
    refine (List.map_congr_left fun c hc => ?_).trans (List.map_id _)
    rcases Bool.or_eq_true_iff.1 (h.chars c hc) with hc | hc
    · exact if_pos hc
    · rw [beq_iff_eq.1 hc]
      rfl
  have hstart : name.toList.head?.all Char.isDigit = false := by
    rw [hhead]
    exact hc
  simp only [identifier, hbody, hstart, Bool.false_eq_true, if_false]
  exact String.ofList_toList

/-- However names are asked for, no name is handed out twice, each is an identifier, and each is the one
nearest to the name that was asked for or the first numbered one that is free; asking for an identifier is
asking for itself. -/
theorem calls_distinct (names : List String) :
    Calls [] names (assign [] names) ∧ (assign [] names).Nodup ∧
      (∀ given ∈ assign [] names, IsIdentifier given) ∧
      ∀ name, identifier (identifier name) = identifier name :=
  ⟨calls_assign [] names, nodup_assign [] names, fun _ => isIdentifier_of_mem_assign,
    fun name => identifier_of_isIdentifier (isIdentifier_identifier name)⟩

/-- Names that were made for others are asked for in their turn. -/
theorem calls_distinct_ages :
    assign [] ["age", "age", "age_1", "age.1", "1st", ""] =
        ["age", "age_1", "age_1_1", "age_1_2", "p1st", "p"] ∧
      Calls [] ["age", "age", "age_1", "age.1", "1st", ""]
        ["age", "age_1", "age_1_1", "age_1_2", "p1st", "p"] ∧
      IsIdentifier "age_1_2" := by
  have hassign : assign [] ["age", "age", "age_1", "age.1", "1st", ""] =
      ["age", "age_1", "age_1_1", "age_1_2", "p1st", "p"] := by decide +kernel
  obtain ⟨hcalls, -, hidentifiers, -⟩ := calls_distinct ["age", "age", "age_1", "age.1", "1st", ""]
  rw [hassign] at hcalls hidentifiers
  exact ⟨hassign, hcalls, hidentifiers _ (by decide)⟩

end QueryMethods.Placeholder
