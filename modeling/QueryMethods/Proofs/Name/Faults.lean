/-
What the errors of a name tell. A name with its words in the right places is refused for its first segment
without a field. If that segment is empty, the error tells the length of the name, which is where the
segment was expected only at the end of the name; if it is a phrase, the error tells the first word of the
keyword's first phrase, which is the word of the name unless the keyword has another phrase.
-/
import QueryMethods.Proofs.Name.Grammar
import QueryMethods.Proofs.Name.Partition

namespace QueryMethods.Name

/-! ## Segments in their places -/

/-- Whether the word stands between segments. -/
def Word.separates (w : Word) : Bool :=
  w.folded == "or" || w.folded == "and"

/-- Segments that have a field, with a separator after each of them. -/
inductive Passed : List Word → Prop
  | nil : Passed []
  | cons {piece rest : List Word} {w : Word} (hplain : ∀ w ∈ piece, w.separates = false)
      (hfield : HasField piece) (hw : w.separates = true) (h : Passed rest) : Passed (piece ++ w :: rest)

/-- The words of the first segment of a name that has no field, and the words that come after it. -/
inductive Faulty (name : String) : List Word → List Word → Prop
  | mk {verb by_ : Word} {filler before piece after : List Word} {subject : Subject}
      (hwords : words name = .ok (verb :: (filler ++ by_ :: (before ++ piece ++ after))))
      (hverb : (verb.folded, subject) ∈ verbs) (hfiller : ∀ w ∈ filler, w.folded ≠ "by")
      (hby : by_.folded = "by") (hbefore : Passed before) (hplain : ∀ w ∈ piece, w.separates = false)
      (hafter : ∀ w, after.head? = some w → w.separates = true) (hfault : ¬HasField piece) :
      Faulty name piece after

/-- Where a segment with these words after it begins if it is empty: where the separator after it does or, if
there is none, at the end of the name. -/
def place (name : String) : List Word → Nat
  | [] => name.utf8ByteSize
  | w :: _ => w.start

/-! ## Splitting at once -/

section

variable {ws piece after : List Word} {pieces rest : List (List Word)}

/-- The pieces of all groups are what the words are split into by both separators. -/
theorem flatten_splitAt (ws : List Word) :
    ((splitAt "or" ws).map (splitAt "and")).flatten = ws.splitOnP Word.separates := by
  induction ws with
  | nil => rfl
  | cons w ws ih =>
    rw [splitAt, List.splitOnP_cons_eq_if_modifyHead, ← splitAt,
      List.splitOnP_cons_eq_if_modifyHead, ← ih, Word.separates]
    obtain ⟨group, groups, hgroups⟩ :=
      List.exists_cons_of_ne_nil (List.splitOnP_ne_nil (·.folded == "or") ws)
    obtain ⟨first, others, hothers⟩ :=
      List.exists_cons_of_ne_nil (List.splitOnP_ne_nil (·.folded == "and") group)
    rw [splitAt, hgroups]
    cases hor : w.folded == "or" with
    | true => rfl
    | false =>
      simp only [Bool.false_eq_true, if_false, Bool.false_or, List.modifyHead_cons, List.map_cons,
        List.flatten_cons]
      rw [splitAt, splitAt, List.splitOnP_cons_eq_if_modifyHead, hothers]
      cases hand : w.folded == "and" with
      | true => rfl
      | false => rfl

/-- Words are one segment, or one with a separator after it and others behind that. -/
theorem splitOnP_cases (ws : List Word) :
    ((∀ w ∈ ws, w.separates = false) ∧ ws.splitOnP Word.separates = [ws]) ∨
      ∃ piece w rest, ws = piece ++ w :: rest ∧ (∀ w ∈ piece, w.separates = false) ∧
        w.separates = true ∧ ws.splitOnP Word.separates = piece :: rest.splitOnP Word.separates := by
  have hsplit : ws = ws.takeWhile (!·.separates) ++ ws.dropWhile (!·.separates) :=
    List.takeWhile_append_dropWhile.symm
  have hplain : ∀ w ∈ ws.takeWhile (!·.separates), w.separates = false := fun w hw => by
    simpa using List.mem_takeWhile_imp hw
  have hhead := List.head?_dropWhile_not (fun w : Word => !w.separates) ws
  generalize ws.takeWhile (!·.separates) = piece at hsplit hplain
  generalize ws.dropWhile (!·.separates) = after at hsplit hhead
  subst hsplit
  cases after with
  | nil =>
    rw [List.append_nil]
    exact .inl ⟨hplain, List.splitOnP_eq_singleton hplain⟩
  | cons w rest =>
    have hw : w.separates = true := by simpa using hhead
    exact .inr ⟨piece, w, rest, rfl, hplain, hw, List.splitOnP_append_cons_of_forall_mem hplain _ hw rest⟩

/-- The pieces up to one of them are words in which each has a separator after it. -/
theorem exists_passed (hfields : ∀ x ∈ pieces, HasField x)
    (h : ws.splitOnP Word.separates = pieces ++ piece :: rest) :
    ∃ before after, ws = before ++ piece ++ after ∧ Passed before ∧
      (∀ w ∈ piece, w.separates = false) ∧ ∀ w, after.head? = some w → w.separates = true := by
  induction pieces generalizing ws with
  | nil =>
    rcases splitOnP_cases ws with ⟨hplain, hws⟩ | ⟨first, w, others, rfl, hplain, hw, hws⟩
    · rw [hws] at h
      cases h
      exact ⟨[], [], (List.append_nil _).symm, .nil, hplain, nofun⟩
    · rw [hws] at h
      cases h
      exact ⟨[], w :: others, rfl, .nil, hplain, fun x hx => by cases hx; exact hw⟩
  | cons x pieces ih =>
    obtain ⟨hx, hothers⟩ := List.forall_mem_cons.1 hfields
    rcases splitOnP_cases ws with ⟨hplain, hws⟩ | ⟨first, w, others, rfl, hplain, hw, hws⟩
    · rw [hws] at h
      have hlength := congrArg List.length h
      simp at hlength
    · rw [hws, List.cons_append, List.cons.injEq] at h
      obtain ⟨rfl, h⟩ := h
      obtain ⟨before, after, rfl, hbefore, hrest⟩ := ih hothers h
      exact ⟨first ++ w :: before, after, by simp, .cons hplain hx hw hbefore, hrest⟩

theorem Passed.splitOnP_eq {before : List Word} (h : Passed before)
    (hplain : ∀ w ∈ piece, w.separates = false)
    (hafter : ∀ w, after.head? = some w → w.separates = true) :
    ∃ pieces rest, (before ++ piece ++ after).splitOnP Word.separates = pieces ++ piece :: rest ∧
      ∀ x ∈ pieces, HasField x := by
  induction h with
  | nil =>
    cases after with
    | nil => exact ⟨[], [], by rw [List.append_nil]; exact List.splitOnP_eq_singleton hplain, nofun⟩
    | cons w rest =>
      exact ⟨[], _, List.splitOnP_append_cons_of_forall_mem hplain _ (hafter w rfl) rest, nofun⟩
  | @cons first others w hfirst hfield hw _ ih =>
    obtain ⟨pieces, rest, hsplit, hfields⟩ := ih
    refine ⟨first :: pieces, rest, ?_, List.forall_mem_cons.2 ⟨hfield, hfields⟩⟩
    rw [List.append_assoc, List.append_assoc, List.cons_append,
      List.splitOnP_append_cons_of_forall_mem hfirst _ hw, ← List.append_assoc, hsplit]
    rfl

end

/-! ## Faults -/

section

variable {name : String} {piece : List Word}

/-- A segment without a field is a fault if those before it have one. -/
theorem faulty_iff : (∃ after, Faulty name piece after) ↔
    ∃ subject pieces before after, Sentence name subject pieces ∧
      pieces.flatten = before ++ piece :: after ∧ (∀ x ∈ before, HasField x) ∧ ¬HasField piece := by
  constructor
  · rintro ⟨after, hwords, hverb, hfiller, hby, hbefore, hplain, hafter, hfault⟩
    obtain ⟨pieces, rest, hsplit, hfields⟩ := hbefore.splitOnP_eq hplain hafter
    rw [← flatten_splitAt] at hsplit
    exact ⟨_, _, pieces, rest,
      .mk hwords hverb hfiller hby (joined_splitAt "or" _) (forall₂_splitAt _), hsplit, hfields, hfault⟩
  · rintro ⟨subject, pieces, before, rest, ⟨hwords, hverb, hfiller, hby, hgroups, hpieces⟩, hsplit,
      hfields, hfault⟩
    rw [eq_map_of_forall₂ hpieces, ← hgroups.splitAt_eq, flatten_splitAt] at hsplit
    obtain ⟨before, after, rfl, hbefore, hplain, hafter⟩ := exists_passed hfields hsplit
    exact ⟨after, .mk hwords hverb hfiller hby hbefore hplain hafter hfault⟩

theorem Faulty.parse_eq {after : List Word} {e : ParseError} (h : Faulty name piece after)
    (he : Fails name.utf8ByteSize piece e) : parse name = .error e := by
  obtain ⟨subject, pieces, before, rest, hsentence, hpieces, hbefore, -⟩ := faulty_iff.1 ⟨after, h⟩
  exact (FirstFault.piece hsentence hpieces hbefore he).parse_eq

theorem Fails.not_hasField {length : Nat} {e : ParseError} (h : Fails length piece e) : ¬HasField piece := by
  cases h with
  | empty => exact fun h => h.1 rfl
  | phrase hmem => exact fun h => h.2 _ hmem rfl

/-- A word of a name begins before the name ends. -/
theorem start_lt {ws : List Word} (h : words name = .ok ws) {w : Word} (hw : w ∈ ws) :
    w.start < name.utf8ByteSize := by
  obtain ⟨hlaid, -⟩ := words_eq_ok_iff_laid.1 h
  obtain ⟨before, after, htext, hstart, hword, -⟩ := hlaid.slice w hw
  have hpos := List.length_pos_of_ne_nil hword.ne_nil
  have hlength := congrArg List.length htext
  rw [List.length_append, List.length_append] at hlength
  rw [utf8ByteSize_of_isNameText hlaid.isNameText]
  omega

theorem Faulty.place_eq_iff {after : List Word} (h : Faulty name piece after) :
    place name after = name.utf8ByteSize ↔ after = [] := by
  cases after with
  | nil => exact iff_of_true rfl rfl
  | cons w after =>
    obtain ⟨hwords, -, -, -, -, -, -, -⟩ := h
    have hlt : w.start < name.utf8ByteSize := start_lt hwords (by simp)
    exact iff_of_false (Nat.ne_of_lt hlt) (List.cons_ne_nil _ _)

end

/-! ## First words of phrases -/

/-- The first words of the phrases that are not the first of their keyword, each with the one that is. -/
def otherHeads : List (String × String) :=
  [("starts", "starting"), ("ends", "ending"), ("contains", "containing"), ("after", "greater"),
    ("before", "less"), ("is", "equals")]

/-- The word that an error tells for the first word of a phrase. -/
def told (word : String) : String :=
  (otherHeads.lookup word).getD word

theorem told_head : ∀ p ∈ Keyword.phrases, p.1.head?.map told = some p.2.head := by
  decide

theorem told_eq_self_iff (word : String) : told word = word ↔ word ∉ otherHeads.map Prod.fst := by
  by_cases hmem : word ∈ otherHeads.map Prod.fst
  · have hother : ∀ w ∈ otherHeads.map Prod.fst, told w ≠ w := by decide
    exact iff_of_false (hother word hmem) (not_not_intro hmem)
  · have hlookup : otherHeads.lookup word = none :=
      List.lookup_eq_none_iff.2 fun p hp => bne_iff_ne.2 fun heq =>
        hmem (List.mem_map.2 ⟨p, hp, heq.symm⟩)
    rw [told, hlookup]
    exact iff_of_true rfl hmem

/-! ## Errors -/

section

variable {name : String} {piece : List Word}

theorem Faulty.parse_eq_emptySegment {after : List Word} (h : Faulty name [] after) :
    parse name = .error (.emptySegment name.utf8ByteSize) :=
  h.parse_eq .empty

/-- Words without a field are none or a phrase, whose first word is told. -/
theorem Faulty.parse_eq_missingField {w : Word} {after : List Word} (h : Faulty name (w :: piece) after) :
    parse name = .error (.missingField (told w.folded)) := by
  obtain ⟨p, hp, hphrase⟩ : ∃ p ∈ Keyword.phrases, (w :: piece).map Word.folded = p.1 := by
    obtain ⟨-, -, -, -, -, -, -, hfault⟩ := h
    by_contra hnone
    exact hfault ⟨List.cons_ne_nil _ _, fun p hp heq => hnone ⟨p, hp, heq⟩⟩
  have htold := told_head p hp
  rw [← hphrase] at htold
  rw [Option.some.inj htold]
  exact h.parse_eq (.phrase (hphrase ▸ hp))

end

/-- If the first segment without a field is empty, the error tells the length of the name, which is the
place of the segment if and only if that is the last one. If it is a phrase, the error tells its first
word, but for six words, for which it tells another one. -/
theorem told_parse (name : String) :
    (∀ position, parse name = .error (.emptySegment position) ↔
        position = name.utf8ByteSize ∧ ∃ after, Faulty name [] after) ∧
      (∀ head, parse name = .error (.missingField head) ↔
        ∃ w piece after, Faulty name (w :: piece) after ∧ head = told w.folded) ∧
      (∀ after, Faulty name [] after →
        (parse name = .error (.emptySegment (place name after)) ↔ after = [])) ∧
      ∀ w piece after, Faulty name (w :: piece) after →
        (parse name = .error (.missingField w.folded) ↔ w.folded ∉ otherHeads.map Prod.fst) := by
  refine ⟨fun position => ⟨fun h => ?empty, ?_⟩, fun head => ⟨fun h => ?phrase, ?_⟩,
    fun after h => ?place, fun w piece after h => ?word⟩
  case empty =>
    cases firstFault_of_parse h with
    | piece hsentence hpieces hbefore hpiece =>
      have hfaulty := faulty_iff.2 ⟨_, _, _, _, hsentence, hpieces, hbefore, hpiece.not_hasField⟩
      cases hpiece with
      | empty => exact ⟨rfl, hfaulty⟩
  case phrase =>
    cases firstFault_of_parse h with
    | @piece _ _ _ _ piece _ hsentence hpieces hbefore hpiece =>
      obtain ⟨after, hfaulty⟩ :=
        faulty_iff.2 ⟨_, _, _, _, hsentence, hpieces, hbefore, hpiece.not_hasField⟩
      cases hpiece with
      | phrase hmem =>
        cases piece with
        | nil => exact absurd rfl (phrase_ne_nil _ hmem)
        | cons w piece =>
          have hsame := h.symm.trans hfaulty.parse_eq_missingField
          exact ⟨w, piece, after, hfaulty, ParseError.missingField.inj (Except.error.inj hsame)⟩
  case place =>
    rw [h.parse_eq_emptySegment, ← h.place_eq_iff]
    exact ⟨fun hsame => (ParseError.emptySegment.inj (Except.error.inj hsame)).symm,
      fun hplace => by rw [hplace]⟩
  case word =>
    rw [h.parse_eq_missingField, ← told_eq_self_iff]
    exact ⟨fun hsame => ParseError.missingField.inj (Except.error.inj hsame),
      fun htold => by rw [htold]⟩
  · rintro ⟨rfl, after, h⟩
    exact h.parse_eq_emptySegment
  · rintro ⟨w, piece, after, h, rfl⟩
    exact h.parse_eq_missingField

/-- An empty segment between separators is told by the length of the name, and the word contains by
containing. -/
theorem parse_misplaced :
    (∃ after, Faulty "findByNameAndOrAge" [] after ∧ place "findByNameAndOrAge" after = 13 ∧
        parse "findByNameAndOrAge" = .error (.emptySegment 18)) ∧
      ∃ w, Faulty "findByContains" [w] [] ∧ w.folded = "contains" ∧
        parse "findByContains" = .error (.missingField "containing") := by
  have hverb : (Word.folded ⟨0, "find"⟩, Subject.find) ∈ verbs := by decide +kernel
  constructor
  · have hwords : words "findByNameAndOrAge" = .ok (⟨0, "find"⟩ :: ([] ++ ⟨4, "By"⟩ ::
        ([⟨6, "Name"⟩] ++ [⟨10, "And"⟩] ++ [] ++ [⟨13, "Or"⟩, ⟨15, "Age"⟩]))) := by
      decide +kernel
    have hname : HasField [⟨6, "Name"⟩] := ⟨by decide, by decide +kernel⟩
    have hbefore : Passed ([⟨6, "Name"⟩] ++ [⟨10, "And"⟩]) :=
      .cons (by decide +kernel) hname (by decide +kernel) .nil
    have hafter : ∀ w, [(⟨13, "Or"⟩ : Word), ⟨15, "Age"⟩].head? = some w → w.separates = true := by
      intro w h
      cases h
      decide +kernel
    have hfault : ¬HasField [] := fun h => h.1 rfl
    exact ⟨_, .mk hwords hverb nofun (by decide +kernel) hbefore nofun hafter hfault, rfl,
      by decide +kernel⟩
  · have hwords : words "findByContains" = .ok (⟨0, "find"⟩ :: ([] ++ ⟨4, "By"⟩ ::
        ([] ++ [⟨6, "Contains"⟩] ++ []))) := by decide +kernel
    have hfault : ¬HasField [⟨6, "Contains"⟩] := fun h => h.2 (["contains"], .matching .contains)
      (by decide) (by decide +kernel)
    exact ⟨_, .mk hwords hverb nofun (by decide +kernel) .nil (by decide +kernel) nofun hfault,
      by decide +kernel, by decide +kernel⟩

end QueryMethods.Name
