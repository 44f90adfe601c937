/-
Where the words of a name stand. A word is made of small characters, of one capital and small characters
after it, or of capitals and perhaps a digit and small characters after them; it takes all that belongs to
it. Words stand in a text one after the other, with nothing but underscores before, between and after
them, and reading finds them just where they stand.
-/
import Mathlib.Data.Bool.AllAny
import Mathlib.Data.List.TakeWhile
import QueryMethods.Name.Word

namespace QueryMethods.Name

/-! ## Characters -/

/-- The characters that `isSmall` accepts. -/
def smallChars : List Char := "abcdefghijklmnopqrstuvwxyz0123456789".toList

theorem mem_smallChars {c : Char} (h : isSmall c) : c ∈ smallChars := by
  -- The characters in question come before the 123rd, so it is enough to go through these.
  have hc : Char.ofNat c.toNat = c := Char.ofNat_toNat c
  have hall : ∀ n < 123, isSmall (Char.ofNat n) → Char.ofNat n ∈ smallChars := by decide
  have hlt : c.toNat < 123 := by
    rw [isSmall, Bool.or_eq_true] at h
    rcases h with h | h
    · have hle := of_decide_eq_true (Bool.and_eq_true_iff.1 h).2
      exact Nat.lt_succ_of_le hle
    · have hle := of_decide_eq_true (Bool.and_eq_true_iff.1 h).2
      exact Nat.lt_of_le_of_lt hle (by decide)
  have := hall _ hlt
  rw [hc] at this
  exact this h

theorem small_spec {c : Char} (h : isSmall c) :
    c.toLower = c ∧ c.isUpper = false ∧ c.isAlphanum = true ∧ c ≠ '_' := by
  have hall : ∀ c ∈ smallChars,
      c.toLower = c ∧ c.isUpper = false ∧ c.isAlphanum = true ∧ c ≠ '_' :=
    List.all_iff_forall_prop.1 (by decide)
  exact hall c (mem_smallChars h)

theorem isSmall_of_isLower {c : Char} (h : c.isLower) : isSmall c := by
  rw [isSmall, h]; rfl

theorem isSmall_of_isDigit {c : Char} (h : c.isDigit) : isSmall c := by
  rw [isSmall, h, Bool.or_true]

theorem isAlphanum_iff {c : Char} : c.isAlphanum ↔ c.isUpper ∨ isSmall c := by
  have hassoc : c.isAlphanum = (c.isUpper || isSmall c) := Bool.or_assoc _ _ _
  rw [hassoc, Bool.or_eq_true]

theorem isSmall_of_isUpper {c : Char} (h : c.isUpper) : isSmall c = false := by
  rw [Bool.eq_false_iff]
  intro hsmall
  rw [(small_spec hsmall).2.1] at h
  cases h

theorem isLower_of_isUpper {c : Char} (h : c.isUpper) : c.isLower = false := by
  rw [Bool.eq_false_iff]
  intro hlower
  have hsmall := isSmall_of_isLower hlower
  rw [isSmall_of_isUpper h] at hsmall
  cases hsmall

theorem isLower_of_isDigit {c : Char} (h : c.isDigit) : c.isLower = false := by
  have hall : ∀ c ∈ smallChars, c.isDigit → c.isLower = false := List.all_iff_forall_prop.1 (by decide)
  exact hall c (mem_smallChars (isSmall_of_isDigit h)) h

theorem ne_underscore_of_isAlphanum {c : Char} (h : c.isAlphanum) : c ≠ '_' := by
  rintro rfl
  cases h

/-! ## One word -/

/-- The text does not begin with a character of the kind. -/
def Avoids (kind : Char → Bool) (s : List Char) : Prop :=
  ∀ c, s.head? = some c → kind c = false

/-- The text begins with a capital that goes on with a run of capitals. A capital before a lowercase
letter begins a word of its own. -/
def GoesOn : List Char → Prop
  | [] => False
  | c :: r => c.isUpper ∧ Avoids Char.isLower r

/-- The forms of words before a text. -/
inductive IsWord (after : List Char) : List Char → Prop
  | small {text : List Char} (hne : text ≠ []) (hsmall : ∀ c ∈ text, isSmall c) : IsWord after text
  | capital {c : Char} {r : List Char} (hc : c.isUpper) (hr : ∀ c ∈ r, isSmall c) :
      IsWord after (c :: r)
  | capitals {caps : List Char} (hmany : 2 ≤ caps.length) (hcaps : ∀ c ∈ caps, c.isUpper)
      (hlower : Avoids Char.isLower after) : IsWord after caps
  | numbered {caps r : List Char} {d : Char} (hmany : 2 ≤ caps.length) (hcaps : ∀ c ∈ caps, c.isUpper)
      (hd : d.isDigit) (hr : ∀ c ∈ r, isSmall c) : IsWord after (caps ++ d :: r)

namespace IsWord

variable {after text : List Char}

theorem ne_nil (h : IsWord after text) : text ≠ [] := by
  cases h with
  | small hne hsmall => exact hne
  | capital hc hr => exact List.cons_ne_nil _ _
  | capitals hmany hcaps hlower => exact List.ne_nil_of_length_pos (Nat.zero_lt_of_lt hmany)
  | numbered hmany hcaps hd hr => exact List.append_ne_nil_of_right_ne_nil _ (List.cons_ne_nil _ _)

theorem isAlphanum (h : IsWord after text) : ∀ c ∈ text, c.isAlphanum := by
  have hupper {c : Char} (hc : c.isUpper) : c.isAlphanum := isAlphanum_iff.2 (.inl hc)
  have hsmall {c : Char} (hc : isSmall c) : c.isAlphanum := isAlphanum_iff.2 (.inr hc)
  cases h with
  | small hne hall => exact fun c hc => hsmall (hall c hc)
  | capital hc hr => exact List.forall_mem_cons.2 ⟨hupper hc, fun x hx => hsmall (hr x hx)⟩
  | capitals hmany hcaps hlower => exact fun c hc => hupper (hcaps c hc)
  | numbered hmany hcaps hd hr =>
    refine List.forall_mem_append.2 ⟨fun c hc => hupper (hcaps c hc), ?_⟩
    exact List.forall_mem_cons.2 ⟨hsmall (isSmall_of_isDigit hd), fun x hx => hsmall (hr x hx)⟩

end IsWord

/-- A word ends where it could not go on: no small character comes after it, and after capitals alone
none that goes on with them. -/
structure EndsBefore (after word : List Char) : Prop where
  small : Avoids isSmall after
  capital : (∀ c ∈ word, c.isUpper) → ¬GoesOn after

/-! ### Taking a word -/

section

variable {c : Char} {s r caps tail rest after : List Char}

theorem avoids_iff {kind : Char → Bool} : Avoids kind s ↔ s.head?.any kind = false := by
  cases s with
  | nil => exact ⟨fun _ => rfl, fun _ => nofun⟩
  | cons c s =>
    rw [List.head?_cons, Option.any_some]
    exact ⟨fun h => h c rfl, fun h x hx => by cases hx; exact h⟩

theorem Avoids.while_eq {kind : Char → Bool} (h : Avoids kind s) :
    s.takeWhile kind = [] ∧ s.dropWhile kind = s := by
  cases s with
  | nil => exact ⟨rfl, rfl⟩
  | cons c s =>
    have hc := h c rfl
    rw [List.takeWhile_cons, List.dropWhile_cons, hc]
    exact ⟨rfl, rfl⟩

theorem takeCapitals_of_goesOn (h : GoesOn (c :: r)) :
    takeCapitals (c :: r) = (c :: (takeCapitals r).1, (takeCapitals r).2) := by
  rw [takeCapitals, h.1, avoids_iff.1 h.2]
  rfl

theorem takeCapitals_of_not_goesOn (h : ¬GoesOn s) : takeCapitals s = ([], s) := by
  cases s with
  | nil => rfl
  | cons c r =>
    rw [takeCapitals, if_neg]
    rw [Bool.and_eq_true, Bool.not_eq_true', ← avoids_iff]
    exact h

/-- A run of capitals ends before a text that does not go on with it. -/
theorem takeCapitals_append_eq (hcaps : ∀ c ∈ caps, c.isUpper)
    (hlower : caps ≠ [] → Avoids Char.isLower rest) (hrest : ¬GoesOn rest) :
    takeCapitals (caps ++ rest) = (caps, rest) := by
  induction caps with
  | nil => exact takeCapitals_of_not_goesOn hrest
  | cons c caps ih =>
    obtain ⟨hc, hcaps⟩ := List.forall_mem_cons.1 hcaps
    have hlower' := hlower (List.cons_ne_nil c caps)
    have hnext : Avoids Char.isLower (caps ++ rest) := by
      cases caps with
      | nil => exact hlower'
      | cons x caps =>
        intro y hy
        cases hy
        exact isLower_of_isUpper (hcaps x List.mem_cons_self)
    rw [List.cons_append, takeCapitals_of_goesOn ⟨hc, hnext⟩, ih hcaps fun _ => hlower']

theorem takeCapitals_spec (s : List Char) :
    (∀ c ∈ (takeCapitals s).1, c.isUpper) ∧
      ((takeCapitals s).1 ≠ [] → Avoids Char.isLower (takeCapitals s).2) ∧
      ¬GoesOn (takeCapitals s).2 := by
  induction s with
  | nil => exact ⟨nofun, fun h => absurd rfl h, id⟩
  | cons c r ih =>
    by_cases hgoes : GoesOn (c :: r)
    · obtain ⟨hupper, hlower, hrest⟩ := ih
      rw [takeCapitals_of_goesOn hgoes]
      refine ⟨List.forall_mem_cons.2 ⟨hgoes.1, hupper⟩, fun _ => ?_, hrest⟩
      -- If no capital goes on with this one, all that came after it is left.
      by_cases hnil : (takeCapitals r).1 = []
      · have hall := takeCapitals_append r
        rw [hnil, List.nil_append] at hall
        show Avoids Char.isLower (takeCapitals r).2
        rw [hall]
        exact hgoes.2
      · exact hlower hnil
    · rw [takeCapitals_of_not_goesOn hgoes]
      exact ⟨nofun, fun h => absurd rfl h, hgoes⟩

theorem not_goesOn_of_isSmall (hc : isSmall c) (r : List Char) : ¬GoesOn (c :: r) := by
  intro h
  have hupper := h.1
  rw [(small_spec hc).2.1] at hupper
  cases hupper

/-- A capital, the capitals that go on with it and small characters are a word. -/
theorem isWord_of_capitals (hcaps : ∀ x ∈ c :: caps, x.isUpper) (htail : ∀ x ∈ tail, isSmall x)
    (hlower : caps ≠ [] → Avoids Char.isLower (tail ++ after)) : IsWord after (c :: caps ++ tail) := by
  cases caps with
  | nil => exact .capital (hcaps c List.mem_cons_self) htail
  | cons x caps =>
    have hmany : 2 ≤ (c :: x :: caps).length := Nat.le_add_left 2 caps.length
    have hlower := hlower (List.cons_ne_nil x caps)
    cases tail with
    | nil =>
      rw [List.append_nil]
      exact .capitals hmany hcaps hlower
    | cons d tail =>
      obtain ⟨hd, htail⟩ := List.forall_mem_cons.1 htail
      rw [isSmall, hlower d rfl, Bool.false_or] at hd
      exact .numbered hmany hcaps hd htail

/-- Nothing goes on with capitals and small characters that have all been taken. -/
theorem endsBefore_of_not_goesOn (htail : ∀ x ∈ tail, isSmall x) (hafter : Avoids isSmall after)
    (hgoes : ¬GoesOn (tail ++ after)) : EndsBefore after (caps ++ tail) where
  small := hafter
  capital hall := by
    cases tail with
    | nil => exact hgoes
    | cons d tail =>
      have hd := hall d (List.mem_append_right _ List.mem_cons_self)
      rw [(small_spec (htail d List.mem_cons_self)).2.1] at hd
      cases hd

/-- What is taken from a text is a word. -/
theorem isWord_takeWord (hc : c.isAlphanum) (r : List Char) :
    IsWord (takeWord c r).2 (takeWord c r).1 ∧ EndsBefore (takeWord c r).2 (takeWord c r).1 := by
  have htail (s : List Char) : ∀ x ∈ s.takeWhile isSmall, isSmall x :=
    fun x hx => List.mem_takeWhile_imp hx
  have hafter (s : List Char) : Avoids isSmall (s.dropWhile isSmall) := fun x hx => by
    have hhead := List.head?_dropWhile_not isSmall s
    rw [hx] at hhead
    exact hhead
  by_cases hupper : c.isUpper
  · obtain ⟨hcaps, hlower, hgoes⟩ := takeCapitals_spec r
    have hall : ∀ x ∈ c :: (takeCapitals r).1, x.isUpper := List.forall_mem_cons.2 ⟨hupper, hcaps⟩
    have hsplit (s : List Char) : s.takeWhile isSmall ++ s.dropWhile isSmall = s :=
      List.takeWhile_append_dropWhile
    rw [← hsplit (takeCapitals r).2] at hlower hgoes
    simp only [takeWord, hupper, if_true]
    exact ⟨isWord_of_capitals hall (htail _) hlower,
      endsBefore_of_not_goesOn (htail _) (hafter _) hgoes⟩
  · have hsmall : isSmall c := (isAlphanum_iff.1 hc).resolve_left hupper
    simp only [takeWord, hupper]
    refine ⟨.small (List.cons_ne_nil c _) (List.forall_mem_cons.2 ⟨hsmall, htail r⟩), hafter r, ?_⟩
    exact fun h => absurd (h c List.mem_cons_self) hupper

/-! ### Taking it back -/

theorem takeWord_of_capitals (hcaps : ∀ x ∈ c :: caps, x.isUpper)
    (htail : ∀ x ∈ tail, isSmall x) (hlower : caps ≠ [] → Avoids Char.isLower (tail ++ after))
    (hend : EndsBefore after (c :: caps ++ tail)) :
    takeWord c (caps ++ tail ++ after) = (c :: caps ++ tail, after) := by
  obtain ⟨hc, hcaps'⟩ := List.forall_mem_cons.1 hcaps
  have hgoes : ¬GoesOn (tail ++ after) := by
    cases tail with
    | nil => exact hend.capital (by rwa [List.append_nil])
    | cons d tail => exact not_goesOn_of_isSmall (htail d List.mem_cons_self) _
  have hstart := takeCapitals_append_eq hcaps' hlower hgoes
  obtain ⟨htake, hdrop⟩ := hend.small.while_eq
  rw [takeWord, List.append_assoc, hc, if_pos rfl, hstart]
  simp only [List.takeWhile_append_of_pos htail, List.dropWhile_append_of_pos htail, htake, hdrop,
    List.append_nil]

/-- A word that ends before a text is what is taken of both. -/
theorem takeWord_of_isWord (hword : IsWord after (c :: r)) (hend : EndsBefore after (c :: r)) :
    takeWord c (r ++ after) = (c :: r, after) := by
  -- A numbered word is an append, which has a first character only once its capitals are split.
  generalize htext : c :: r = text at hword
  cases hword with
  | small hne hsmall =>
    subst htext
    obtain ⟨hc, hr⟩ := List.forall_mem_cons.1 hsmall
    obtain ⟨htake, hdrop⟩ := hend.small.while_eq
    have hupper := (small_spec hc).2.1
    simp only [takeWord, hupper, Bool.false_eq_true, if_false, List.takeWhile_append_of_pos hr,
      List.dropWhile_append_of_pos hr, htake, hdrop, List.append_nil, List.singleton_append]
  | capital hc hr =>
    cases htext
    rw [← List.nil_append r]
    exact takeWord_of_capitals (List.forall_mem_singleton.2 hc) hr (fun h => absurd rfl h) hend
  | capitals hmany hcaps hlower =>
    subst htext
    rw [← List.append_nil (c :: r)] at hend
    have htaken := @takeWord_of_capitals c r [] after hcaps (List.forall_mem_nil _) (fun _ => hlower) hend
    rwa [List.append_nil, List.append_nil] at htaken
  | @numbered caps tail d hmany hcaps hd htail =>
    cases caps with
    | nil => cases hmany
    | cons x caps =>
      cases htext
      have hdigit : ∀ c ∈ d :: tail, isSmall c :=
        List.forall_mem_cons.2 ⟨isSmall_of_isDigit hd, htail⟩
      refine takeWord_of_capitals hcaps hdigit (fun _ y hy => ?_) hend
      cases hy
      exact isLower_of_isDigit hd

end

end QueryMethods.Name
