/-
Patterns as regular expressions. The text that a pattern is written as can be read as a regular
expression, and what is read finds in a text without line feeds what the pattern stands for; patterns
that are written alike differ in runs of percent signs only.
-/
import QueryMethods.Proofs.Pattern.Language

namespace QueryMethods

/-! ## Regular expressions -/

namespace Regex

/-- What stands for one character. -/
inductive Atom where
  | char (c : Char)
  /-- Any character but a line feed. -/
  | any
  deriving DecidableEq

/-- The atom stands for the character. -/
def Atom.Matches : Atom → Char → Prop
  | .char c, x => x = c
  | .any, x => x ≠ '\n'

/-- An atom, or any number of characters that it stands for. -/
structure Item where
  atom : Atom
  repeated : Bool
  deriving DecidableEq

/-- The texts that items stand for, one after the other. -/
inductive Accepts : List Item → List Char → Prop
  | nil : Accepts [] []
  | once {a : Atom} {is : List Item} {c : Char} {t : List Char} (hc : a.Matches c)
      (h : Accepts is t) : Accepts (⟨a, false⟩ :: is) (c :: t)
  | many {a : Atom} {is : List Item} {s t : List Char} (hs : ∀ c ∈ s, a.Matches c)
      (h : Accepts is t) : Accepts (⟨a, true⟩ :: is) (s ++ t)

end Regex

/-- Items, which may have to begin where the text begins and to end where it ends. -/
structure Regex where
  fromStart : Bool
  items : List Regex.Item
  toEnd : Bool
  deriving DecidableEq

namespace Regex

/-- The expression matches a part of the text. -/
def Finds (e : Regex) (s : List Char) : Prop :=
  ∃ before part after, s = before ++ part ++ after ∧ Accepts e.items part ∧
    (e.fromStart = true → before = []) ∧ (e.toEnd = true → after = [])

/-! ## Reading -/

/-- The characters that are not themselves unless a backslash is before them. -/
def operators : List Char :=
  "\\.+*?()|[]\x7b\x7d^$".toList

/-- The characters that a backslash makes literal. Before a letter, a digit or an angle bracket it stands
for something else, and before anything beyond ASCII for nothing. -/
def coverable (c : Char) : Bool :=
  c.toNat < 128 && !c.isAlphanum && c != '<' && c != '>'

/-- Reads an atom and leaves the rest. -/
def atom? : List Char → Option (Atom × List Char)
  | [] => none
  | '.' :: r => some (.any, r)
  | '\\' :: c :: r => if coverable c then some (.char c, r) else none
  | c :: r => if operators.contains c then none else some (.char c, r)

theorem length_of_atom? {s r : List Char} {a : Atom} (h : atom? s = some (a, r)) :
    r.length < s.length := by
  unfold atom? at h
  split at h
  · cases h
  · cases h
    simp
  · split at h
    · cases h
      simp only [List.length_cons]
      omega
    · cases h
  · split at h
    · cases h
    · cases h
      simp

/-- Reads an atom and the star after it, if there is one. -/
def item? (s : List Char) : Option (Item × List Char) :=
  match atom? s with
  | none => none
  | some (a, '*' :: r) => some (⟨a, true⟩, r)
  | some (a, r) => some (⟨a, false⟩, r)

theorem length_of_item? {s r : List Char} {i : Item} (h : item? s = some (i, r)) :
    r.length < s.length := by
  unfold item? at h
  split at h
  · cases h
  · rename_i hatom
    cases h
    have := length_of_atom? hatom
    simp only [List.length_cons] at this
    omega
  · rename_i hatom
    cases h
    exact length_of_atom? hatom

theorem item?_once {s r : List Char} {a : Atom} (h : atom? s = some (a, r))
    (hstar : r.head? ≠ some '*') : item? s = some (⟨a, false⟩, r) := by
  unfold item?
  rw [h]
  split
  · rename_i hnone
    cases hnone
  · rename_i hsome
    cases hsome
    exact absurd rfl hstar
  · rename_i hsome
    cases hsome
    rfl

/-- Reads items up to the end of the text, and whether there is a dollar sign before it. A star has no
meaning of its own and an operator none at all. -/
def items? (s : List Char) : Option (List Item × Bool) :=
  if s = [] then some ([], false)
  else if s = ['$'] then some ([], true)
  else
    match _h : item? s with
    | none => none
    | some (i, r) => (fun (is, toEnd) => (i :: is, toEnd)) <$> items? r
termination_by s.length
decreasing_by exact length_of_item? _h

/-- Reads a text as a regular expression, which may begin with an anchor. -/
def read? : List Char → Option Regex
  | '^' :: r => (fun (is, toEnd) => ⟨true, is, toEnd⟩) <$> items? r
  | s => (fun (is, toEnd) => ⟨false, is, toEnd⟩) <$> items? s

theorem items?_cons {s r : List Char} {i : Item} (h : item? s = some (i, r)) :
    items? s = (fun (is, toEnd) => (i :: is, toEnd)) <$> items? r := by
  have hnil : s ≠ [] := by
    rintro rfl
    cases h
  have hend : s ≠ ['$'] := by
    rintro rfl
    cases h
  rw [items?, if_neg hnil, if_neg hend]
  split
  · rename_i hnone
    rw [h] at hnone
    cases hnone
  · rename_i hsome
    rw [h] at hsome
    cases hsome
    rfl

/-! ## Patterns -/

/-- What a character of a pattern is in a regular expression. -/
def Item.ofSign (c : Char) : Item :=
  if c = '%' then ⟨.any, true⟩ else if c = '_' then ⟨.any, false⟩ else ⟨.char c, false⟩

theorem Item.ofSign_injective : Function.Injective Item.ofSign := by
  intro c d h
  unfold ofSign at h
  grind

/-- All operators are made literal, and all that is made literal can be. -/
theorem mem_specials {c : Char} (h : c ∈ operators) : Pattern.specials.contains c := by
  have hall : operators.all Pattern.specials.contains = true := by decide
  exact List.all_eq_true.1 hall c h

theorem coverable_of_mem_specials {c : Char} (h : c ∈ Pattern.specials) : coverable c := by
  have hall : Pattern.specials.all coverable = true := by decide
  exact List.all_eq_true.1 hall c h

/-- A character that was made literal is read as itself. -/
theorem atom?_literal (c : Char) (r : List Char) :
    atom? (Pattern.literal c ++ r) = some (.char c, r) := by
  unfold Pattern.literal
  split
  · rename_i hc
    have hcoverable : coverable c := coverable_of_mem_specials (by simpa using hc)
    show (if coverable c then some (Atom.char c, [] ++ r) else none) = _
    rw [if_pos hcoverable, List.nil_append]
  · rename_i hc
    have hne (x : Char) (hx : x ∈ operators) : c ≠ x := by
      rintro rfl
      exact hc (mem_specials hx)
    rw [List.singleton_append, atom?]
    · exact if_neg fun hoperator => hne c (by simpa using hoperator) rfl
    · exact hne '.' (by decide)
    · intro _ _ hback
      exact absurd hback (hne '\\' (by decide))

/-- What a pattern is written as begins with no star and no anchor. -/
theorem head?_toRegex (p : List Char) {c : Char} (hc : c ∈ operators) (hdot : c ≠ '.')
    (hback : c ≠ '\\') : (Pattern.toRegex p).head? ≠ some c := by
  have hfirst {x : Char} (r : List Char) (hx : x ≠ c) : (x :: r).head? ≠ some c := by
    simpa using hx
  fun_induction Pattern.toRegex p with
  | case1 => simp
  | case2 r ih => exact ih
  | case3 => exact hfirst _ hdot.symm
  | case4 => exact hfirst _ hdot.symm
  | case5 x r _ _ _ _ =>
    unfold Pattern.literal
    split
    · exact hfirst _ hback.symm
    · rename_i hx
      refine hfirst _ ?_
      rintro rfl
      exact hx (mem_specials hc)

theorem items?_toRegex (p : List Char) {rest : List Char} {toEnd : Bool}
    (h : items? rest = some ([], toEnd)) (hstar : rest.head? ≠ some '*') :
    items? (Pattern.toRegex p ++ rest) = some ((Pattern.collapse p).map Item.ofSign, toEnd) := by
  have hhead (q : List Char) : (Pattern.toRegex q ++ rest).head? ≠ some '*' := by
    rw [List.head?_append]
    cases hq : (Pattern.toRegex q).head? with
    | none => simpa using hstar
    | some c => simpa [hq] using head?_toRegex q (c := '*') (by decide) (by decide) (by decide)
  fun_induction Pattern.toRegex p with
  | case1 => simpa [Pattern.collapse] using h
  | case2 r ih => rw [ih, Pattern.collapse]
  | case3 r hrun ih =>
    have hitem : item? ('.' :: '*' :: Pattern.toRegex r ++ rest) =
        some (Item.ofSign '%', Pattern.toRegex r ++ rest) := rfl
    rw [items?_cons hitem, ih, Pattern.collapse]
    · rfl
    · exact fun r' _ => hrun r'
  | case4 r ih =>
    have hitem : item? ('.' :: Pattern.toRegex r ++ rest) =
        some (Item.ofSign '_', Pattern.toRegex r ++ rest) := item?_once rfl (hhead r)
    rw [items?_cons hitem, ih, Pattern.collapse]
    · rfl
    · exact nofun
  | case5 c r hruns hrun hone ih =>
    have hitem : item? (Pattern.literal c ++ (Pattern.toRegex r ++ rest)) =
        some (⟨.char c, false⟩, Pattern.toRegex r ++ rest) :=
      item?_once (atom?_literal c _) (hhead r)
    have hsign : Item.ofSign c = ⟨.char c, false⟩ := by
      unfold Item.ofSign
      rw [if_neg hrun, if_neg hone]
    rw [List.append_assoc, items?_cons hitem, ih, Pattern.collapse, List.map_cons, hsign]
    · rfl
    · exact hruns

theorem read?_unanchored (p : String) :
    read? (PatternStyle.unanchored.write (some p)).toList =
      some ⟨false, (Pattern.collapse p.toList).map Item.ofSign, false⟩ := by
  have hend : items? [] = some ([], false) := by
    rw [items?]
    rfl
  have hitems := items?_toRegex p.toList hend (by decide)
  rw [List.append_nil] at hitems
  rw [PatternStyle.write, String.toList_ofList, read?, hitems]
  · rfl
  · intro r hr
    have hhead := head?_toRegex p.toList (c := '^') (by decide) (by decide) (by decide)
    rw [hr] at hhead
    exact hhead rfl

/-- A pattern for the whole field is read between two anchors, unless it is empty. -/
theorem read?_anchored (p : String) :
    read? (PatternStyle.anchored.write (some p)).toList =
      some ⟨!p.isEmpty, (Pattern.collapse p.toList).map Item.ofSign, !p.isEmpty⟩ := by
  by_cases hp : p = ""
  · subst hp
    exact read?_unanchored ""
  · have hend : items? ['$'] = some ([], true) := by
      rw [items?]
      rfl
    have htext : (PatternStyle.anchored.write (some p)).toList =
        '^' :: (Pattern.toRegex p.toList ++ ['$']) := by
      simp [PatternStyle.write, hp]
    have hempty : p.isEmpty = false := by simpa using hp
    rw [htext, read?, items?_toRegex p.toList hend (by decide), hempty]
    rfl

/-! ## Languages -/

variable {a : Atom} {is : List Item} {s : List Char}

theorem accepts_nil_iff : Accepts [] s ↔ s = [] := by
  constructor
  · intro h
    cases h
    rfl
  · rintro rfl
    exact .nil

theorem accepts_once_iff :
    Accepts (⟨a, false⟩ :: is) s ↔ ∃ c t, s = c :: t ∧ a.Matches c ∧ Accepts is t := by
  constructor
  · intro h
    cases h with
    | once hc h => exact ⟨_, _, rfl, hc, h⟩
  · rintro ⟨c, t, rfl, hc, h⟩
    exact .once hc h

theorem accepts_many_iff :
    Accepts (⟨a, true⟩ :: is) s ↔
      ∃ u t, s = u ++ t ∧ (∀ c ∈ u, a.Matches c) ∧ Accepts is t := by
  constructor
  · intro h
    cases h with
    | many hu h => exact ⟨_, _, rfl, hu, h⟩
  · rintro ⟨u, t, rfl, hu, h⟩
    exact .many hu h

/-- Where there is no line feed, the items of a pattern stand for what the pattern stands for. -/
theorem accepts_ofSign_iff {p : List Char} (hs : '\n' ∉ s) :
    Accepts (p.map Item.ofSign) s ↔ Pattern.Accepts p s := by
  induction p generalizing s with
  | nil => rw [List.map_nil, accepts_nil_iff, Pattern.accepts_nil_iff]
  | cons c p ih =>
    have hany : ∀ x ∈ s, Atom.any.Matches x := fun x hx heq => hs (heq ▸ hx)
    have hrest {t : List Char} (ht : t <:+ s) :
        Accepts (p.map Item.ofSign) t ↔ Pattern.Accepts p t := ih fun hmem => hs (ht.mem hmem)
    rw [List.map_cons, Item.ofSign]
    split
    · rename_i hrun
      subst hrun
      rw [accepts_many_iff, Pattern.accepts_run_iff]
      constructor
      · rintro ⟨u, t, rfl, -, h⟩
        exact ⟨u, t, rfl, (hrest (List.suffix_append u t)).1 h⟩
      · rintro ⟨u, t, rfl, h⟩
        exact ⟨u, t, rfl, fun x hx => hany x (List.mem_append_left t hx),
          (hrest (List.suffix_append u t)).2 h⟩
    · rename_i hrun
      split
      · rename_i hone
        subst hone
        rw [accepts_once_iff, Pattern.accepts_one_iff]
        constructor
        · rintro ⟨x, t, rfl, -, h⟩
          exact ⟨x, t, rfl, (hrest (List.suffix_cons x t)).1 h⟩
        · rintro ⟨x, t, rfl, h⟩
          exact ⟨x, t, rfl, hany x List.mem_cons_self, (hrest (List.suffix_cons x t)).2 h⟩
      · rename_i hone
        rw [accepts_once_iff, Pattern.accepts_char_iff hrun hone]
        constructor
        · rintro ⟨x, t, rfl, rfl, h⟩
          exact ⟨t, rfl, (hrest (List.suffix_cons x t)).1 h⟩
        · rintro ⟨t, rfl, h⟩
          exact ⟨c, t, rfl, rfl, (hrest (List.suffix_cons c t)).2 h⟩

/-- Between two anchors the items of a pattern find what the pattern stands for. -/
theorem finds_anchored_iff {p : List Char} (hs : '\n' ∉ s) :
    Finds ⟨true, (Pattern.collapse p).map Item.ofSign, true⟩ s ↔ Pattern.Accepts p s := by
  rw [← Pattern.accepts_collapse_iff, ← accepts_ofSign_iff hs]
  constructor
  · rintro ⟨before, part, after, rfl, h, hbefore, hafter⟩
    rw [hbefore rfl, hafter rfl, List.nil_append, List.append_nil]
    exact h
  · intro h
    exact ⟨[], s, [], by simp, h, fun _ => rfl, fun _ => rfl⟩

/-- Without anchors they find the texts that have a part for which the pattern stands. -/
theorem finds_unanchored_iff {p : List Char} (hs : '\n' ∉ s) :
    Finds ⟨false, (Pattern.collapse p).map Item.ofSign, false⟩ s ↔
      ∃ part, part <:+: s ∧ Pattern.Accepts p part := by
  have hpart {part : List Char} (h : part <:+: s) :
      Accepts ((Pattern.collapse p).map Item.ofSign) part ↔ Pattern.Accepts p part := by
    rw [accepts_ofSign_iff fun hmem => hs (h.mem hmem), Pattern.accepts_collapse_iff]
  constructor
  · rintro ⟨before, part, after, rfl, h, -, -⟩
    have hinfix : part <:+: before ++ part ++ after := ⟨before, after, rfl⟩
    exact ⟨part, hinfix, (hpart hinfix).1 h⟩
  · rintro ⟨part, hinfix, h⟩
    obtain ⟨before, after, heq⟩ := id hinfix
    exact ⟨before, part, after, heq.symm, (hpart hinfix).2 h, nofun, nofun⟩

end Regex

namespace PatternStyle

open Regex

theorem toRegex_char {c : Char} (hrun : c ≠ '%') (hone : c ≠ '_') (r : List Char) :
    Pattern.toRegex (c :: r) = Pattern.literal c ++ Pattern.toRegex r := by
  rw [Pattern.toRegex]
  · exact fun _ h => absurd h hrun
  · exact hrun
  · exact hone

/-- A run of percent signs is written as one of them is. -/
theorem toRegex_collapse (p : List Char) : Pattern.toRegex (Pattern.collapse p) = Pattern.toRegex p := by
  fun_induction Pattern.collapse p with
  | case1 => rfl
  | case2 r ih => rw [ih, Pattern.toRegex]
  | case3 c r hruns ih =>
    by_cases hrun : c = '%'
    · subst hrun
      have hhead : ∀ t, Pattern.collapse r ≠ '%' :: t := by
        intro t ht
        have hr := Pattern.head?_collapse r
        rw [ht] at hr
        obtain ⟨t', rfl⟩ := List.head?_eq_some_iff.1 hr.symm
        exact hruns t' rfl rfl
      rw [Pattern.toRegex, Pattern.toRegex, ih]
      · exact fun t => hruns t rfl
      · exact hhead
    · by_cases hone : c = '_'
      · subst hone
        rw [Pattern.toRegex, Pattern.toRegex, ih]
      · rw [toRegex_char hrun hone, toRegex_char hrun hone, ih]

theorem write_unanchored_eq_iff {p q : String} :
    unanchored.write (some p) = unanchored.write (some q) ↔
      Pattern.collapse p.toList = Pattern.collapse q.toList := by
  constructor
  · intro h
    have hread := read?_unanchored p
    rw [h, read?_unanchored q] at hread
    injection hread with hregex
    injection hregex with _ hitems _
    exact ((List.map_inj_right fun _ _ h => Item.ofSign_injective h).1 hitems).symm
  · intro h
    rw [write, write, ← toRegex_collapse p.toList, h, toRegex_collapse]

theorem write_anchored_eq_iff {p q : String} :
    anchored.write (some p) = anchored.write (some q) ↔
      Pattern.collapse p.toList = Pattern.collapse q.toList := by
  constructor
  · intro h
    have hread := read?_anchored p
    rw [h, read?_anchored q] at hread
    injection hread with hregex
    injection hregex with _ hitems _
    exact ((List.map_inj_right fun _ _ h => Item.ofSign_injective h).1 hitems).symm
  · intro h
    have hempty : p.isEmpty = q.isEmpty := by
      have hnil : p.toList = [] ↔ q.toList = [] := by
        rw [← Pattern.collapse_eq_nil_iff, h, Pattern.collapse_eq_nil_iff]
      exact Bool.eq_iff_iff.2 (by simpa using hnil)
    rw [write, write, hempty, ← toRegex_collapse p.toList, h, toRegex_collapse]

/-- A pattern is written as a regular expression. For the whole field this finds the texts that the
pattern stands for, and for a part of the field the texts that have such a part, as long as there is no
line feed in them; and two patterns are written alike exactly if they differ in runs of percent signs
only. -/
theorem read_write (p : String) :
    (∃ e, read? (anchored.write (some p)).toList = some e ∧
      (p ≠ "" → ∀ s : String, '\n' ∉ s.toList →
        (e.Finds s.toList ↔ Pattern.Accepts p.toList s.toList))) ∧
    (∃ e, read? (unanchored.write (some p)).toList = some e ∧
      ∀ s : String, '\n' ∉ s.toList →
        (e.Finds s.toList ↔ ∃ part, part <:+: s.toList ∧ Pattern.Accepts p.toList part)) ∧
    ∀ q, (anchored.write (some p) = anchored.write (some q) ↔
        Pattern.collapse p.toList = Pattern.collapse q.toList) ∧
      (unanchored.write (some p) = unanchored.write (some q) ↔
        Pattern.collapse p.toList = Pattern.collapse q.toList) := by
  refine ⟨?_, ⟨_, read?_unanchored p, fun s hs => finds_unanchored_iff hs⟩,
    fun q => ⟨write_anchored_eq_iff, write_unanchored_eq_iff⟩⟩
  refine ⟨_, read?_anchored p, fun hp s hs => ?_⟩
  have hempty : p.isEmpty = false := by simpa using hp
  rw [hempty]
  exact finds_anchored_iff hs

/-- An underscore before a star is no repetition, and two percent signs are one. -/
theorem read_starred :
    "_*%%" ≠ "" ∧ '\n' ∉ "a*bc".toList ∧ anchored.write (some "_*%%") = "^.\\*.*$" ∧
      ∃ e, read? (anchored.write (some "_*%%")).toList = some e ∧ e.Finds "a*bc".toList ∧
        ¬e.Finds "abc".toList := by
  obtain ⟨⟨e, he, hfinds⟩, -⟩ := read_write "_*%%"
  have hstarred : Pattern.Accepts "_*%%".toList "a*bc".toList :=
    .one 'a' (.char (by decide) (by decide) (.run ['b', 'c'] (.run [] .nil)))
  have hbare : ¬Pattern.Accepts "_*%%".toList "abc".toList := by
    intro h
    obtain ⟨_, _, ht, h⟩ := Pattern.accepts_one_iff.1 h
    cases ht
    obtain ⟨_, ht, -⟩ := (Pattern.accepts_char_iff (by decide) (by decide)).1 h
    cases ht
  exact ⟨by decide, by decide, by decide, e, he, (hfinds (by decide) "a*bc" (by decide)).2 hstarred,
    fun h => hbare ((hfinds (by decide) "abc" (by decide)).1 h)⟩

end PatternStyle

end QueryMethods
