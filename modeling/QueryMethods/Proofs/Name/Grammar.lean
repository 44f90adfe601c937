/-
The grammar of method names. The words of a name are a verb, words without meaning, the word by and
pieces with and between them, in groups with or between these; each piece makes up a segment. A name that
is not of this kind is refused for the first thing that is wrong with it.

Every word has its place in the grammar, so a name that is read has lost none of them.
-/
import QueryMethods.Proofs.Entries
import QueryMethods.Proofs.Name.Segments
import QueryMethods.Proofs.Outcome

namespace QueryMethods.Name

/-! ## Names -/

/-- Groups and the words that they make up with a word between them that says the separator. No word in
a group says it. -/
inductive Joined (separator : String) : List (List Word) → List Word → Prop
  | last {group : List Word} (hgroup : ∀ w ∈ group, w.folded ≠ separator) :
      Joined separator [group] group
  | cons {group : List Word} {groups : List (List Word)} {w : Word} {rest : List Word}
      (hgroup : ∀ w ∈ group, w.folded ≠ separator) (hw : w.folded = separator)
      (h : Joined separator groups rest) : Joined separator (group :: groups) (group ++ w :: rest)

/-- A name with words in the right places: a verb, words without meaning, the first by, and pieces with
and between them, in groups with or between these. The pieces may be of any kind yet. -/
inductive Sentence (name : String) : Subject → List (List (List Word)) → Prop
  | mk {verb by_ : Word} {filler predicate : List Word} {subject : Subject}
      {groups : List (List Word)} {pieces : List (List (List Word))}
      (hwords : words name = .ok (verb :: (filler ++ by_ :: predicate)))
      (hverb : (verb.folded, subject) ∈ verbs) (hfiller : ∀ w ∈ filler, w.folded ≠ "by")
      (hby : by_.folded = "by") (hgroups : Joined "or" groups predicate)
      (hpieces : List.Forall₂ (Joined "and") pieces groups) : Sentence name subject pieces

/-- The first thing that is wrong with a name. Where no word comes after by, there is one piece and it is
empty. -/
inductive FirstFault (name : String) : ParseError → Prop
  | words {e : WordError} (hwords : words name = .error e) : FirstFault name (.word e)
  | verb {first : Word} {rest : List Word} (hwords : words name = .ok (first :: rest))
      (hverb : ∀ subject, (first.folded, subject) ∉ verbs) : FirstFault name (.unknownVerb first.text)
  | missingBy {first : Word} {rest : List Word} {subject : Subject}
      (hwords : words name = .ok (first :: rest)) (hverb : (first.folded, subject) ∈ verbs)
      (hby : ∀ w ∈ rest, w.folded ≠ "by") : FirstFault name .missingBy
  | piece {subject : Subject} {pieces : List (List (List Word))} {before after : List (List Word)}
      {piece : List Word} {e : ParseError} (hsentence : Sentence name subject pieces)
      (hpieces : pieces.flatten = before ++ piece :: after) (hbefore : ∀ piece ∈ before, HasField piece)
      (hpiece : Fails name.utf8ByteSize piece e) : FirstFault name e

section

variable {separator : String} {ws : List Word} {groups : List (List Word)}

theorem joined_splitAt (separator : String) (ws : List Word) :
    Joined separator (splitAt separator ws) ws := by
  induction ws with
  | nil => exact .last nofun
  | cons w ws ih =>
    rw [splitAt, List.splitOnP_cons_eq_if_modifyHead, ← splitAt]
    split
    · rename_i hw
      have hnone : ∀ w ∈ ([] : List Word), w.folded ≠ separator := nofun
      exact .cons hnone (beq_iff_eq.1 hw) ih
    · rename_i hw
      have hne : w.folded ≠ separator := fun h => hw (beq_iff_eq.2 h)
      generalize splitAt separator ws = groups at ih ⊢
      cases ih with
      | last hgroup => exact .last (List.forall_mem_cons.2 ⟨hne, hgroup⟩)
      | cons hgroup hw' h => exact .cons (List.forall_mem_cons.2 ⟨hne, hgroup⟩) hw' h

theorem Joined.splitAt_eq (h : Joined separator groups ws) : splitAt separator ws = groups := by
  have hfalse {group : List Word} (hgroup : ∀ w ∈ group, w.folded ≠ separator) :
      ∀ w ∈ group, (w.folded == separator) = false := fun w hw => beq_false_of_ne (hgroup w hw)
  induction h with
  | last hgroup => exact List.splitOnP_eq_singleton (hfalse hgroup)
  | cons hgroup hw _ ih =>
    rw [splitAt, List.splitOnP_append_cons_of_forall_mem (hfalse hgroup) _ (beq_iff_eq.2 hw)]
    exact congrArg _ ih

theorem Joined.mem (h : Joined separator groups ws) {group : List Word} (hgroup : group ∈ groups)
    {w : Word} (hw : w ∈ group) : w ∈ ws := by
  rw [← h.splitAt_eq] at hgroup
  exact mem_of_mem_splitOnP hgroup hw

theorem forall₂_splitAt (groups : List (List Word)) :
    List.Forall₂ (Joined separator) (groups.map (splitAt separator)) groups :=
  List.forall₂_map_left_iff.2 (List.forall₂_same.2 fun group _ => joined_splitAt separator group)

theorem eq_map_of_forall₂ {pieces : List (List (List Word))}
    (h : List.Forall₂ (Joined separator) pieces groups) : pieces = groups.map (splitAt separator) := by
  induction h with
  | nil => rfl
  | cons hfirst _ ih => rw [List.map_cons, hfirst.splitAt_eq, ← ih]

end

theorem mem_verbs_iff {verb : String} {subject : Subject} :
    (verb, subject) ∈ verbs ↔ verbs.lookup verb = some subject := by
  have hnodup : (Entries.keys verbs).Nodup := by decide
  exact ⟨Entries.lookup_of_mem hnodup, Entries.mem_of_lookup⟩

section

variable {name : String} {subject : Subject}

/-- After its verb a name is looked through for the word by, and what comes after it is split. Nothing is
split into one piece, which is empty. -/
theorem parse_of_verb {first : Word} {rest : List Word} (hwords : words name = .ok (first :: rest))
    (hverb : (first.folded, subject) ∈ verbs) :
    parse name = match rest.dropWhile (·.folded != "by") with
      | [] => .error .missingBy
      | _ :: predicate => Plan.mk subject <$> (splitAt "or" predicate).mapM fun group =>
        (splitAt "and" group).mapM (Segment.ofWords (style name) name.utf8ByteSize) := by
  rw [parse, hwords]
  simp only [mem_verbs_iff.1 hverb]
  cases rest.dropWhile (·.folded != "by") with
  | nil => rfl
  | cons by_ predicate =>
    cases predicate with
    | nil => rfl
    | cons w predicate => exact bind_pure_comp _ _

theorem Sentence.parse_eq {pieces : List (List (List Word))} (h : Sentence name subject pieces) :
    parse name = Plan.mk subject <$> pieces.mapM fun group =>
      group.mapM (Segment.ofWords (style name) name.utf8ByteSize) := by
  obtain ⟨hwords, hverb, hfiller, hby, hgroups, hpieces⟩ := h
  rename_i verb by_ filler predicate groups
  have hdrop : (filler ++ by_ :: predicate).dropWhile (·.folded != "by") = by_ :: predicate := by
    rw [List.dropWhile_append_of_pos fun w hw => bne_iff_ne.2 (hfiller w hw), List.dropWhile_cons_of_neg]
    simp [hby]
  rw [parse_of_verb hwords hverb, hdrop, eq_map_of_forall₂ hpieces, List.mapM_map, ← hgroups.splitAt_eq]
  rfl

end

/-- What comes before the pieces is either right or the first thing that is wrong. -/
theorem sentence_or_fault (name : String) :
    (∃ subject pieces, Sentence name subject pieces) ∨ ∃ e, FirstFault name e := by
  cases hwords : words name with
  | error e => exact .inr ⟨_, .words hwords⟩
  | ok ws =>
    obtain ⟨first, rest, rfl⟩ := List.exists_cons_of_ne_nil (spec_words hwords).1
    by_cases hverb : ∃ subject, (first.folded, subject) ∈ verbs
    · obtain ⟨subject, hverb⟩ := hverb
      cases hdrop : rest.dropWhile (·.folded != "by") with
      | nil =>
        have hby := List.dropWhile_eq_nil_iff.1 hdrop
        exact .inr ⟨_, .missingBy hwords hverb fun w hw => bne_iff_ne.1 (hby w hw)⟩
      | cons by_ predicate =>
        have hsplit : rest.takeWhile (·.folded != "by") ++ by_ :: predicate = rest := by
          rw [← hdrop, List.takeWhile_append_dropWhile]
        have hfiller : ∀ w ∈ rest.takeWhile (·.folded != "by"), w.folded ≠ "by" := fun w hw => by
          simpa using List.mem_takeWhile_imp hw
        have hby := List.head?_dropWhile_not (fun w : Word => w.folded != "by") rest
        rw [hdrop] at hby
        exact .inl ⟨subject, _, .mk (hsplit ▸ hwords) hverb hfiller (by simpa using hby)
          (joined_splitAt "or" predicate) (forall₂_splitAt _)⟩
    · exact .inr ⟨_, .verb hwords fun subject h => hverb ⟨subject, h⟩⟩

/-! ## Parsing -/

section

variable {name : String} {subject : Subject} {pieces : List (List (List Word))}
  (h : Sentence name subject pieces)
include h

theorem Sentence.parse_eq_ok_iff {plan : Plan} :
    parse name = .ok plan ↔ plan.subject = subject ∧
      List.Forall₂ (List.Forall₂ (Reads (style name))) pieces plan.disjuncts := by
  obtain ⟨subject', disjuncts⟩ := plan
  have hreads : (pieces.mapM fun group => group.mapM (Segment.ofWords (style name) name.utf8ByteSize)) =
      .ok disjuncts ↔ List.Forall₂ (List.Forall₂ (Reads (style name))) pieces disjuncts := by
    simp only [mapM_eq_ok_iff, ofWords_eq_ok_iff]
  rw [h.parse_eq, ← hreads]
  cases pieces.mapM fun group => group.mapM (Segment.ofWords (style name) name.utf8ByteSize) with
  | error e => exact ⟨nofun, nofun⟩
  | ok found =>
    constructor
    · intro hplan
      cases hplan
      exact ⟨rfl, rfl⟩
    · rintro ⟨rfl, hfound⟩
      cases hfound
      rfl

theorem Sentence.errorOf?_parse :
    errorOf? (parse name) =
      pieces.flatten.findSome? fun piece =>
        errorOf? (Segment.ofWords (style name) name.utf8ByteSize piece) := by
  rw [h.parse_eq, errorOf?_map, errorOf?_mapM_mapM]

theorem Sentence.exists_parse_iff :
    (∃ plan, parse name = .ok plan) ↔ ∀ piece ∈ pieces.flatten, HasField piece := by
  rw [← errorOf?_eq_none_iff, h.errorOf?_parse, List.findSome?_eq_none_iff]
  simp only [errorOf?_eq_none_iff]
  exact forall₂_congr fun piece _ => hasField_iff.symm

theorem Sentence.isText {piece : List Word} (hpiece : piece ∈ pieces.flatten) :
    ∀ w ∈ piece, IsText w.text := by
  obtain ⟨hwords, -, -, -, hgroups, hpieces⟩ := h
  rw [eq_map_of_forall₂ hpieces] at hpiece
  obtain ⟨_, hpieces, hpiece⟩ := List.mem_flatten.1 hpiece
  obtain ⟨group, hgroup, rfl⟩ := List.mem_map.1 hpieces
  intro w hw
  have hpredicate := hgroups.mem hgroup ((joined_splitAt "and" group).mem hpiece hw)
  refine (spec_words hwords).2.1 w (List.mem_cons_of_mem _ (List.mem_append_right _ ?_))
  exact List.mem_cons_of_mem _ hpredicate

end

theorem FirstFault.parse_eq {name : String} {e : ParseError} (h : FirstFault name e) :
    parse name = .error e := by
  cases h with
  | words hwords => rw [parse, hwords]
  | @verb first rest hwords hverb =>
    have hlookup : verbs.lookup first.folded = none :=
      Option.eq_none_iff_forall_ne_some.2 fun subject h => hverb subject (mem_verbs_iff.2 h)
    rw [parse, hwords]
    simp only [hlookup]
    rfl
  | missingBy hwords hverb hby =>
    rw [parse_of_verb hwords hverb, List.dropWhile_eq_nil_iff.2 fun w hw => bne_iff_ne.2 (hby w hw)]
  | piece hsentence hpieces hbefore hpiece =>
    rw [← errorOf?_eq_some_iff, hsentence.errorOf?_parse, List.findSome?_eq_some_iff]
    refine ⟨_, _, _, hpieces, errorOf?_eq_some_iff.2 (ofWords_eq_error_iff.2 hpiece), fun piece hmem => ?_⟩
    exact errorOf?_eq_none_iff.2 (hasField_iff.1 (hbefore piece hmem))

theorem Sentence.firstFault {name : String} {subject : Subject} {pieces : List (List (List Word))}
    (h : Sentence name subject pieces) {e : ParseError} (he : parse name = .error e) :
    FirstFault name e := by
  rw [← errorOf?_eq_some_iff, h.errorOf?_parse, List.findSome?_eq_some_iff] at he
  obtain ⟨before, piece, after, hpieces, hpiece, hbefore⟩ := he
  refine .piece h hpieces (fun p hp => ?_) (ofWords_eq_error_iff.1 (errorOf?_eq_some_iff.1 hpiece))
  exact hasField_iff.2 (errorOf?_eq_none_iff.1 (hbefore p hp))

/-- A name is refused for the first thing that is wrong with it. -/
theorem firstFault_of_parse {name : String} {e : ParseError} (h : parse name = .error e) :
    FirstFault name e := by
  obtain ⟨subject, pieces, hsentence⟩ | ⟨e', hfault⟩ := sentence_or_fault name
  · exact hsentence.firstFault h
  · cases h.symm.trans hfault.parse_eq
    exact hfault

theorem exists_sentence {name : String} {plan : Plan} (h : parse name = .ok plan) :
    ∃ pieces, Sentence name plan.subject pieces ∧
      List.Forall₂ (List.Forall₂ (Reads (style name))) pieces plan.disjuncts := by
  obtain ⟨subject, pieces, hsentence⟩ | ⟨e, hfault⟩ := sentence_or_fault name
  · obtain ⟨rfl, hreads⟩ := hsentence.parse_eq_ok_iff.1 h
    exact ⟨pieces, hsentence, hreads⟩
  · cases h.symm.trans hfault.parse_eq

/-- A name has words if it is made of letters, digits and underscores and not of underscores alone; the
words are all of it but the underscores. It is read if and only if the words are a sentence with nothing
but pieces that have a field. The segments of the plan are then the pieces, one for one and in order, and
their fields are made of letters, digits and underscores. A name that is not read is refused for the first
thing that is wrong with it. -/
theorem grammar_parse (name : String) :
    ((∃ ws, words name = .ok ws) ↔ IsNameText name.toList ∧ ∃ c ∈ name.toList, c ≠ '_') ∧
      (∀ ws, words name = .ok ws →
        ws.flatMap (·.text.toList) = name.toList.filter (· != '_')) ∧
      ((∃ plan, parse name = .ok plan) ↔ ∃ subject pieces, Sentence name subject pieces ∧
        ∀ piece ∈ pieces.flatten, HasField piece) ∧
      (∀ plan, parse name = .ok plan ↔ ∃ pieces, Sentence name plan.subject pieces ∧
        List.Forall₂ (List.Forall₂ (Reads (style name))) pieces plan.disjuncts) ∧
      (∀ plan, parse name = .ok plan →
        ∀ s ∈ plan.segments, s.field.toList ≠ [] ∧ IsNameText s.field.toList) ∧
      ∀ e, parse name = .error e ↔ FirstFault name e := by
  refine ⟨exists_words_iff, fun ws h => (spec_words h).2.2,
    ⟨fun ⟨plan, h⟩ => ?accepted, fun ⟨_, _, hsentence, hpieces⟩ => hsentence.exists_parse_iff.2 hpieces⟩,
    fun plan => ⟨exists_sentence, fun ⟨_, hsentence, hreads⟩ => ?read⟩, fun plan h s hs => ?field,
    fun e => ⟨firstFault_of_parse, FirstFault.parse_eq⟩⟩
  case accepted =>
    obtain ⟨pieces, hsentence, -⟩ := exists_sentence h
    exact ⟨plan.subject, pieces, hsentence, hsentence.exists_parse_iff.1 ⟨plan, h⟩⟩
  case read => exact hsentence.parse_eq_ok_iff.2 ⟨rfl, hreads⟩
  case field =>
    obtain ⟨pieces, hsentence, hreads⟩ := exists_sentence h
    obtain ⟨piece, hpiece, hread⟩ := exists_of_mem_forall₂ (List.rel_flatten hreads) hs
    exact hread.isNameText (hsentence.isText hpiece)

example : parse "existsUserByHTTPStatusGreaterThanANDNotInUse" =
    .ok ⟨.existence, [[⟨"httpStatus", .greaterThan⟩, ⟨"notInUse", .equal⟩]]⟩ := by decide +kernel

example : parse "find_by_age_not_in_or_In" = .error (.missingField "in") := by decide +kernel

end QueryMethods.Name
