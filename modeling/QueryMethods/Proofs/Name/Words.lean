/-
What the words of a name are. A text of letters, digits and underscores has words, unless it has nothing
but underscores; they are made of letters and digits, and together they are all of the text but the
underscores. Reading finds the words where they stand, and stops at the first character that is of no
word.
-/
import QueryMethods.Proofs.Name.Layout

namespace QueryMethods.Name

/-! ## Texts -/

/-- Letters and digits, of which there is one at least. -/
structure IsText (text : String) : Prop where
  ne_nil : text.toList ≠ []
  chars : ∀ c ∈ text.toList, c.isAlphanum

/-- A text of letters, digits and underscores. -/
def IsNameText (s : List Char) : Prop :=
  ∀ c ∈ s, c.isAlphanum ∨ c = '_'

theorem IsText.isNameText {text : String} (h : IsText text) : IsNameText text.toList :=
  fun c hc => .inl (h.chars c hc)

theorem IsText.filter_eq {text : String} (h : IsText text) :
    text.toList.filter (· != '_') = text.toList :=
  List.filter_eq_self.2 fun c hc => bne_iff_ne.2 (ne_underscore_of_isAlphanum (h.chars c hc))

theorem IsWord.isText {after : List Char} {text : String} (h : IsWord after text.toList) :
    IsText text :=
  ⟨h.ne_nil, h.isAlphanum⟩

theorem filter_underscores {us : List Char} (hus : ∀ c ∈ us, c = '_') : us.filter (· != '_') = [] :=
  List.filter_eq_nil_iff.2 fun c hc => by rw [hus c hc, bne_self_eq_false]; exact Bool.false_ne_true

/-! ## Words in a text -/

/-- The words stand in the text, whose first character has the position, one after the other, and
underscores are all there is besides. -/
inductive Laid : Nat → List Word → List Char → Prop
  | nil {position : Nat} {us : List Char} (hus : ∀ c ∈ us, c = '_') : Laid position [] us
  | cons {position : Nat} {us after : List Char} {w : Word} {ws : List Word} (hus : ∀ c ∈ us, c = '_')
      (hstart : w.start = position + us.length) (hword : IsWord after w.text.toList)
      (hend : EndsBefore after w.text.toList) (h : Laid (w.start + w.text.toList.length) ws after) :
      Laid position (w :: ws) (us ++ (w.text.toList ++ after))

namespace Laid

variable {position : Nat} {ws : List Word} {text : List Char}

theorem isText (h : Laid position ws text) : ∀ w ∈ ws, IsText w.text := by
  induction h with
  | nil hus => exact nofun
  | cons hus hstart hword hend h ih => exact List.forall_mem_cons.2 ⟨hword.isText, ih⟩

theorem isNameText (h : Laid position ws text) : IsNameText text := by
  induction h with
  | nil hus => exact fun c hc => .inr (hus c hc)
  | cons hus hstart hword hend h ih =>
    refine List.forall_mem_append.2 ⟨fun c hc => .inr (hus c hc), ?_⟩
    exact List.forall_mem_append.2 ⟨hword.isText.isNameText, ih⟩

/-- The words are all of the text but the underscores. -/
theorem flatMap_text (h : Laid position ws text) :
    ws.flatMap (·.text.toList) = text.filter (· != '_') := by
  induction h with
  | nil hus => exact (filter_underscores hus).symm
  | cons hus hstart hword hend h ih =>
    rw [List.flatMap_cons, ih, List.filter_append, List.filter_append, filter_underscores hus,
      hword.isText.filter_eq, List.nil_append]

end Laid

/-! ## Reading words -/

namespace Scanner

section

variable {s : Scanner} {us : List Char}

theorem skip_of_underscores (hus : ∀ c ∈ us, c = '_') {rest : List Char}
    (hrest : s.rest = us ++ rest) (hnext : rest.head? ≠ some '_') :
    s.skipUnderscores = ⟨s.style, s.position + us.length, rest⟩ := by
  have hall : ∀ c ∈ us, (c == '_') = true := fun c hc => beq_iff_eq.2 (hus c hc)
  have havoids : Avoids (· == '_') rest := fun c hc => beq_eq_false_iff_ne.2 fun h => hnext (h ▸ hc)
  obtain ⟨htake, hdrop⟩ := havoids.while_eq
  rw [skipUnderscores, hrest, List.takeWhile_append_of_pos hall, List.dropWhile_append_of_pos hall, htake,
    hdrop, List.append_nil]

theorem next_of_underscores (hus : ∀ c ∈ s.rest, c = '_') : s.next.1 = .ok none := by
  rw [next, skip_of_underscores hus (List.append_nil _).symm (Option.some_ne_none '_').symm]

theorem next_of_word (hus : ∀ c ∈ us, c = '_') {w : Word} {after : List Char}
    (hrest : s.rest = us ++ (w.text.toList ++ after)) (hstart : w.start = s.position + us.length)
    (hword : IsWord after w.text.toList) (hend : EndsBefore after w.text.toList) :
    s.next = (.ok (some w), ⟨s.style, w.start + w.text.toList.length, after⟩) := by
  obtain ⟨start, text⟩ := w
  obtain ⟨c, r, htext⟩ := List.exists_cons_of_ne_nil hword.ne_nil
  have hc : c.isAlphanum := hword.isAlphanum c (htext ▸ List.mem_cons_self)
  have hne : (text.toList ++ after).head? ≠ some '_' := by
    rw [htext, List.cons_append, List.head?_cons, Ne, Option.some_inj]
    exact ne_underscore_of_isAlphanum hc
  have hskip := skip_of_underscores hus hrest hne
  dsimp only at hstart htext hword hend hskip
  rw [htext] at hskip hword hend
  simp only [next, hskip, List.cons_append, hc, if_true, takeWord_of_isWord hword hend]
  rw [← hstart, ← htext, String.ofList_toList]

theorem next_of_other (hus : ∀ c ∈ us, c = '_') {c : Char} {r : List Char}
    (hrest : s.rest = us ++ c :: r) (hc : ¬(c.isAlphanum ∨ c = '_')) :
    s.next.1 = .error (.unexpectedCharacter (s.position + us.length)) := by
  obtain ⟨halnum, hne⟩ := not_or.1 hc
  have hskip := skip_of_underscores hus hrest (by rwa [List.head?_cons, Ne, Option.some_inj])
  simp only [next, hskip, halnum]
  rfl

/-- What is before a place: nothing but underscores, a word after underscores, or after underscores a
character that is of no word. -/
inductive Ahead (s : Scanner) : Prop
  | underscores (hus : ∀ c ∈ s.rest, c = '_') (hnext : s.next.1 = .ok none)
  | word {us after : List Char} {w : Word} (hus : ∀ c ∈ us, c = '_')
      (hrest : s.rest = us ++ (w.text.toList ++ after)) (hstart : w.start = s.position + us.length)
      (hword : IsWord after w.text.toList) (hend : EndsBefore after w.text.toList)
      (hnext : s.next = (.ok (some w), ⟨s.style, w.start + w.text.toList.length, after⟩))
  | other {us r : List Char} {c : Char} (hus : ∀ c ∈ us, c = '_') (hrest : s.rest = us ++ c :: r)
      (hc : ¬(c.isAlphanum ∨ c = '_'))
      (hnext : s.next.1 = .error (.unexpectedCharacter (s.position + us.length)))

theorem ahead (s : Scanner) : s.Ahead := by
  have hus : ∀ c ∈ s.rest.takeWhile (· == '_'), c = '_' := fun c hc => by
    simpa using List.mem_takeWhile_imp hc
  have hsplit : s.rest = s.rest.takeWhile (· == '_') ++ s.rest.dropWhile (· == '_') :=
    List.takeWhile_append_dropWhile.symm
  have hhead := List.head?_dropWhile_not (· == '_') s.rest
  generalize s.rest.takeWhile (· == '_') = us at hus hsplit
  generalize s.rest.dropWhile (· == '_') = rest at hsplit hhead
  cases rest with
  | nil =>
    rw [← List.append_nil us, ← hsplit] at hus
    exact .underscores hus (next_of_underscores hus)
  | cons c r =>
    by_cases hc : c.isAlphanum
    · -- What the scanner takes is a word, whatever was skipped before it.
      obtain ⟨hword, hend⟩ := isWord_takeWord hc r
      rw [← takeWord_append c r] at hsplit
      generalize (takeWord c r).1 = text at hword hend hsplit
      rw [← String.toList_ofList (l := text)] at hword hend hsplit
      let w : Word := ⟨s.position + us.length, String.ofList text⟩
      exact .word (w := w) hus hsplit rfl hword hend (next_of_word hus hsplit rfl hword hend)
    · have hother : ¬(c.isAlphanum ∨ c = '_') := by
        rintro (h | rfl)
        · exact hc h
        · cases hhead
      exact .other hus hsplit hother (next_of_other hus hsplit hother)

theorem words_of_none (h : s.next.1 = .ok none) : s.words = .ok [] := by
  rw [words]
  split <;> simp_all

theorem words_of_next {s' : Scanner} {w : Word} (h : s.next = (.ok (some w), s')) :
    s.words = (w :: ·) <$> s'.words := by
  rw [words]
  split <;> simp_all

end

/-- Words that stand in a text are read off it. -/
theorem words_of_laid {position : Nat} {ws : List Word} {text : List Char} (h : Laid position ws text) :
    ∀ style, words ⟨style, position, text⟩ = .ok ws := by
  induction h with
  | nil hus => exact fun style => words_of_none (next_of_underscores hus)
  | cons hus hstart hword hend h ih =>
    intro style
    rw [words_of_next (next_of_word hus rfl hstart hword hend), ih]
    rfl

/-- Reading on gives the words as they stand, unless there is a character that is of no word. Then it stops
at the first one. -/
theorem words_cases (s : Scanner) :
    (∃ ws, s.words = .ok ws ∧ Laid s.position ws s.rest) ∨
      ∃ before c after, s.rest = before ++ c :: after ∧ IsNameText before ∧
        ¬(c.isAlphanum ∨ c = '_') ∧
        s.words = .error (.unexpectedCharacter (s.position + before.length)) := by
  fun_induction words s with
  | case1 s e he =>
    cases s.ahead with
    | underscores hus hnext => cases hnext.symm.trans he
    | word hus hrest hstart hword hend hnext =>
      rw [hnext] at he
      cases he
    | @other us r c hus hrest hc hnext =>
      cases he.symm.trans hnext
      exact .inr ⟨us, c, r, hrest, fun c hc => .inr (hus c hc), hc, rfl⟩
  | case2 s hn =>
    cases s.ahead with
    | underscores hus hnext => exact .inl ⟨[], rfl, .nil hus⟩
    | word hus hrest hstart hword hend hnext =>
      rw [hnext] at hn
      cases hn
    | other hus hrest hc hnext => cases hnext.symm.trans hn
  | case3 s w hw ih =>
    cases s.ahead with
    | underscores hus hnext => cases hnext.symm.trans hw
    | other hus hrest hc hnext => cases hnext.symm.trans hw
    | @word us after w hus hrest hstart hword hend hnext =>
      rw [hnext] at hw ih
      cases hw
      rw [hnext, hrest]
      obtain ⟨ws, hws, hlaid⟩ | ⟨before, c, r, hafter, hbefore, hc, he⟩ := ih
      · exact .inl ⟨w :: ws, by rw [hws]; rfl, .cons hus hstart hword hend hlaid⟩
      · refine .inr ⟨us ++ (w.text.toList ++ before), c, r, ?_, ?_, hc, ?_⟩
        · rw [show after = before ++ c :: r from hafter, List.append_assoc, List.append_assoc]
        · refine List.forall_mem_append.2 ⟨fun c hc => .inr (hus c hc), ?_⟩
          exact List.forall_mem_append.2 ⟨hword.isText.isNameText, hbefore⟩
        · rw [he, List.length_append, List.length_append, hstart, ← Nat.add_assoc, ← Nat.add_assoc]
          rfl

end Scanner

/-! ## Names -/

section

variable {name : String} {ws : List Word}

theorem words_eq_ok_iff : words name = .ok ws ↔ (Scanner.ofName name).words = .ok ws ∧ ws ≠ [] := by
  rw [words, Scanner.someWords]
  split
  · rename_i h
    rw [h]
    constructor
    · intro h
      cases h
    · rintro ⟨hnil, hne⟩
      cases hnil
      exact absurd rfl hne
  · rename_i hne
    refine ⟨fun h => ⟨h, ?_⟩, And.left⟩
    rintro rfl
    exact hne h

theorem Laid.eq_nil_iff {position : Nat} {text : List Char} (h : Laid position ws text) :
    ws = [] ↔ ∀ c ∈ text, c = '_' := by
  cases h with
  | nil hus => exact iff_of_true rfl hus
  | cons hus hstart hword hend h =>
    refine iff_of_false (List.cons_ne_nil _ _) fun hall => ?_
    obtain ⟨c, hc⟩ := List.exists_mem_of_ne_nil _ hword.ne_nil
    exact ne_underscore_of_isAlphanum (hword.isAlphanum c hc)
      (hall c (List.mem_append_right _ (List.mem_append_left _ hc)))

/-- A name has the words that stand in it, unless it has nothing but underscores or a character that is of
no word. -/
theorem words_cases (name : String) :
    (∃ ws, words name = .ok ws ∧ ws ≠ [] ∧ Laid 0 ws name.toList) ∨
      (words name = .error .noWords ∧ ∀ c ∈ name.toList, c = '_') ∨
      ∃ before c after, name.toList = before ++ c :: after ∧ IsNameText before ∧
        ¬(c.isAlphanum ∨ c = '_') ∧ words name = .error (.unexpectedCharacter before.length) := by
  obtain ⟨ws, hws, hlaid⟩ | ⟨before, c, after, hrest, hbefore, hc, he⟩ := (Scanner.ofName name).words_cases
  · cases ws with
    | nil =>
      refine .inr (.inl ⟨?_, hlaid.eq_nil_iff.1 rfl⟩)
      rw [words, Scanner.someWords, hws]
    | cons w ws =>
      have hne := List.cons_ne_nil w ws
      exact .inl ⟨_, words_eq_ok_iff.2 ⟨hws, hne⟩, hne, hlaid⟩
  · refine .inr (.inr ⟨before, c, after, hrest, hbefore, hc, ?_⟩)
    rw [words, Scanner.someWords, he, show (Scanner.ofName name).position = 0 from rfl, Nat.zero_add]

/-- A name has the words that stand in it. -/
theorem words_eq_ok_iff_laid : words name = .ok ws ↔ Laid 0 ws name.toList ∧ ws ≠ [] := by
  constructor
  · intro h
    obtain ⟨ws', hws, hne, hlaid⟩ | ⟨he, -⟩ | ⟨_, _, _, -, -, -, he⟩ := words_cases name
    · cases h.symm.trans hws
      exact ⟨hlaid, hne⟩
    · cases h.symm.trans he
    · cases h.symm.trans he
  · exact fun ⟨h, hne⟩ => words_eq_ok_iff.2 ⟨Scanner.words_of_laid h _, hne⟩

/-- The words of a name are texts, of which there is one at least, and together all of the name but its
underscores. -/
theorem spec_words (h : words name = .ok ws) :
    ws ≠ [] ∧ (∀ w ∈ ws, IsText w.text) ∧
      ws.flatMap (·.text.toList) = name.toList.filter (· != '_') := by
  obtain ⟨hlaid, hne⟩ := words_eq_ok_iff_laid.1 h
  exact ⟨hne, hlaid.isText, hlaid.flatMap_text⟩

/-- A name has words if it is made of name characters and not of underscores alone. -/
theorem exists_words_iff :
    (∃ ws, words name = .ok ws) ↔ IsNameText name.toList ∧ ∃ c ∈ name.toList, c ≠ '_' := by
  obtain ⟨ws, hws, hne, hlaid⟩ | ⟨he, hus⟩ | ⟨before, c, after, hrest, -, hc, he⟩ := words_cases name
  · refine iff_of_true ⟨ws, hws⟩ ⟨hlaid.isNameText, ?_⟩
    rwa [Ne, hlaid.eq_nil_iff, not_forall₂, exists_congr fun c => exists_prop] at hne
  · refine iff_of_false ?_ fun ⟨_, c, hc, hne⟩ => hne (hus c hc)
    rintro ⟨ws, h⟩
    cases h.symm.trans he
  · have hmem : c ∈ name.toList := hrest ▸ List.mem_append_right _ List.mem_cons_self
    refine iff_of_false ?_ fun ⟨htext, _⟩ => hc (htext c hmem)
    rintro ⟨ws, h⟩
    cases h.symm.trans he

end

end QueryMethods.Name
