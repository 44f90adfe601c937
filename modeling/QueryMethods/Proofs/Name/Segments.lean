/-
The words of a segment: those of a field and, after them, the longest phrase that they end in. Words make
up a segment unless there are none or they are nothing but a phrase.
-/
import QueryMethods.Proofs.Name.Spelling
import QueryMethods.Proofs.Separators

namespace QueryMethods.Name

/-! ## Phrases -/

/-- The words end in the phrase of a keyword and in no longer one, or in no phrase, which says the same as
`equal`. -/
inductive EndsIn (ws : List String) : List String → Keyword → Prop
  | phrase {phrase : List String} {keyword : Keyword} (hmem : (phrase, keyword) ∈ Keyword.phrases)
      (hsuffix : phrase <:+ ws)
      (hlongest : ∀ p ∈ Keyword.phrases, p.1 <:+ ws → p.1.length ≤ phrase.length) :
      EndsIn ws phrase keyword
  | plain (hnone : ∀ p ∈ Keyword.phrases, ¬p.1 <:+ ws) : EndsIn ws [] .equal

/-- A phrase stands before those that it ends in. -/
theorem pairwise_phrases : Keyword.phrases.Pairwise fun p q => ¬p.1 <:+ q.1 := by
  decide

theorem phrase_inj : ∀ p ∈ Keyword.phrases, ∀ q ∈ Keyword.phrases, p.1 = q.1 → p = q := by
  decide

theorem phrase_ne_nil : ∀ p ∈ Keyword.phrases, p.1 ≠ [] := by
  decide

section

variable {ws : List String}

/-- The first phrase that fits is the longest. -/
theorem endsIn_trailingPhrase (ws : List String) :
    EndsIn ws (trailingPhrase ws).1 (trailingPhrase ws).2 := by
  rw [trailingPhrase]
  cases h : Keyword.phrases.find? (·.1.isSuffixOf ws) with
  | none =>
    rw [List.find?_eq_none] at h
    exact .plain fun p hp hsuffix => h p hp (List.isSuffixOf_iff_suffix.2 hsuffix)
  | some p =>
    obtain ⟨hsuffix, before, after, hphrases, hbefore⟩ := List.find?_eq_some_iff_append.1 h
    have hsuffix := List.isSuffixOf_iff_suffix.1 hsuffix
    refine .phrase (List.mem_of_find?_eq_some h) hsuffix fun q hq hq' => ?_
    have hpairwise := pairwise_phrases
    rw [hphrases, List.pairwise_append, List.pairwise_cons] at hpairwise
    rw [hphrases] at hq
    rcases List.mem_append.1 hq with hq | hq
    · -- A phrase further to the front would have been found.
      have hno := hbefore q hq
      rw [List.isSuffixOf_iff_suffix.2 hq'] at hno
      cases hno
    rcases List.mem_cons.1 hq with rfl | hq
    · exact Nat.le_refl _
    · rcases List.suffix_or_suffix_of_suffix hsuffix hq' with hpq | hqp
      · exact absurd hpq (hpairwise.2.1.1 q hq)
      · exact hqp.length_le

theorem EndsIn.unique {phrase phrase' : List String} {keyword keyword' : Keyword}
    (h : EndsIn ws phrase keyword) (h' : EndsIn ws phrase' keyword') :
    (phrase, keyword) = (phrase', keyword') := by
  cases h with
  | plain hnone =>
    cases h' with
    | plain => rfl
    | phrase hmem hsuffix _ => exact absurd hsuffix (hnone _ hmem)
  | phrase hmem hsuffix hlongest =>
    cases h' with
    | plain hnone => exact absurd hsuffix (hnone _ hmem)
    | phrase hmem' hsuffix' hlongest' =>
      have hle := hlongest' _ hmem hsuffix
      have hsame : phrase <:+ phrase' := List.suffix_of_suffix_length_le hsuffix hsuffix' hle
      have heq := hsame.eq_of_length (Nat.le_antisymm hle (hlongest _ hmem' hsuffix'))
      exact phrase_inj _ hmem _ hmem' heq

theorem EndsIn.trailingPhrase_eq {phrase : List String} {keyword : Keyword}
    (h : EndsIn ws phrase keyword) : trailingPhrase ws = (phrase, keyword) :=
  (endsIn_trailingPhrase ws).unique h

theorem EndsIn.suffix {phrase : List String} {keyword : Keyword} (h : EndsIn ws phrase keyword) :
    phrase <:+ ws := by
  cases h with
  | phrase _ hsuffix _ => exact hsuffix
  | plain _ => exact List.nil_suffix

theorem EndsIn.mem {phrase : List String} {keyword : Keyword} (h : EndsIn ws phrase keyword)
    (hne : phrase ≠ []) : (phrase, keyword) ∈ Keyword.phrases := by
  cases h with
  | phrase hmem _ _ => exact hmem
  | plain _ => exact absurd rfl hne

end

/-! ## Fields -/

/-- The words of a field as one text: snake words between underscores; camel words run together, the
first of them in lowercase if it has no lowercase letter, and otherwise with a lowercase letter in front. -/
inductive Rejoined : Style → List String → String → Prop
  | snake (ws : List String) : Rejoined .snake ws ("_".intercalate ws)
  | acronym {w : String} (r : List String) (hw : ∀ c ∈ w.toList, c.isLower = false) :
      Rejoined .camel (w :: r) (w.toLower ++ String.join r)
  | word {w : String} {c : Char} {cs : List Char} (r : List String) (hw : w.toList = c :: cs)
      (hlower : ∃ x ∈ w.toList, x.isLower) :
      Rejoined .camel (w :: r) (String.ofList (c.toLower :: cs) ++ String.join r)

theorem lowerFirst_of_acronym {w : String} (hw : ∀ c ∈ w.toList, c.isLower = false) :
    lowerFirst w = w.toLower := by
  rw [lowerFirst]
  split
  · rename_i hnil
    rw [← String.toList_inj, toList_toLower, hnil]
    rfl
  · rename_i hcons
    rw [← hcons, if_pos]
    exact List.all_eq_true.2 fun c hc => by rw [hw c hc]; rfl

theorem lowerFirst_of_word {w : String} {c : Char} {cs : List Char} (hw : w.toList = c :: cs)
    (hlower : ∃ x ∈ w.toList, x.isLower) : lowerFirst w = String.ofList (c.toLower :: cs) := by
  obtain ⟨x, hx, hlower⟩ := hlower
  rw [lowerFirst, hw]
  refine if_neg fun hall => ?_
  have hupper := List.all_eq_true.1 hall x (hw ▸ hx)
  rw [hlower] at hupper
  cases hupper

theorem rejoined_iff {style : Style} {ws : List String} {text : String} (hne : ws ≠ []) :
    Rejoined style ws text ↔ text = fieldOf style ws := by
  constructor
  · rintro (_ | ⟨r, hw⟩ | ⟨r, hw, hlower⟩)
    · rfl
    · rw [fieldOf, lowerFirst_of_acronym hw]
    · rw [fieldOf, lowerFirst_of_word hw hlower]
  · rintro rfl
    cases style with
    | snake => exact .snake ws
    | camel =>
      obtain ⟨w, r, rfl⟩ := List.exists_cons_of_ne_nil hne
      rw [fieldOf]
      by_cases hlower : ∃ x ∈ w.toList, x.isLower
      · have ⟨x, hx, _⟩ := hlower
        obtain ⟨c, cs, hw⟩ := List.exists_cons_of_ne_nil (List.ne_nil_of_mem hx)
        rw [lowerFirst_of_word hw hlower]
        exact .word r hw hlower
      · have hw : ∀ c ∈ w.toList, c.isLower = false := fun c hc =>
          Bool.eq_false_iff.2 fun h => hlower ⟨c, hc, h⟩
        rw [lowerFirst_of_acronym hw]
        exact .acronym r hw

theorem isAlphanum_toLower {c : Char} (h : c.isAlphanum) : c.toLower.isAlphanum := by
  by_cases hupper : c.isUpper
  · -- The capitals come before the 91st character, so it is enough to go through these.
    have hall : ∀ n < 91, (Char.ofNat n).isUpper → (Char.ofNat n).toLower.isAlphanum := by decide
    have hle : c.toNat ≤ 90 := (of_decide_eq_true hupper).2
    have hlower := hall c.toNat (Nat.lt_succ_of_le hle)
    rw [Char.ofNat_toNat] at hlower
    exact hlower hupper
  · have hsmall : (c.isUpper || c.isLower || c.isDigit) = true := h
    rw [Bool.eq_false_iff.2 hupper, Bool.false_or] at hsmall
    rw [(small_spec hsmall).1]
    exact h

theorem IsText.append_join {w : String} {r : List String} (hw : IsText w) (hr : ∀ w ∈ r, IsText w) :
    IsText (w ++ String.join r) where
  ne_nil := by
    rw [String.toList_append]
    exact List.append_ne_nil_of_left_ne_nil hw.ne_nil _
  chars := by
    rw [String.toList_append, String.toList_join]
    refine List.forall_mem_append.2 ⟨hw.chars, fun c hc => ?_⟩
    obtain ⟨w, hw, hc⟩ := List.mem_flatMap.1 hc
    exact (hr w hw).chars c hc

/-- A field is not empty and has only letters, digits and underscores. -/
theorem Rejoined.isNameText {style : Style} {ws : List String} {text : String}
    (h : Rejoined style ws text) (hne : ws ≠ []) (hws : ∀ w ∈ ws, IsText w) :
    text.toList ≠ [] ∧ IsNameText text.toList := by
  have hcamel {text : String} (htext : IsText text) : text.toList ≠ [] ∧ IsNameText text.toList :=
    ⟨htext.ne_nil, htext.isNameText⟩
  cases h with
  | snake =>
    have htoList : ("_".intercalate ws).toList = ['_'].intercalate (ws.map String.toList) :=
      String.toList_intercalate
    rw [htoList]
    have hparts : ∀ part ∈ ws.map String.toList, part ≠ [] ∧ ∀ c ∈ part, c.isAlphanum :=
      List.forall_mem_map.2 fun w hw => ⟨(hws w hw).ne_nil, (hws w hw).chars⟩
    refine ⟨intercalate_ne_nil (mt List.map_eq_nil_iff.1 hne) fun part hpart => (hparts part hpart).1,
      fun c hc => ?_⟩
    rcases mem_intercalate hc with rfl | ⟨part, hpart, hc⟩
    · exact .inr rfl
    · exact .inl ((hparts part hpart).2 c hc)
  | @acronym w r hw =>
    obtain ⟨htext, hr⟩ := List.forall_mem_cons.1 hws
    refine hcamel (IsText.append_join ⟨?_, ?_⟩ hr)
    · rw [toList_toLower]
      exact mt List.map_eq_nil_iff.1 htext.ne_nil
    · rw [toList_toLower]
      exact List.forall_mem_map.2 fun c hc => isAlphanum_toLower (htext.chars c hc)
  | @word w c cs r hw hlower =>
    obtain ⟨htext, hr⟩ := List.forall_mem_cons.1 hws
    have hchars := htext.chars
    rw [hw, List.forall_mem_cons] at hchars
    refine hcamel (IsText.append_join ⟨?_, ?_⟩ hr)
    · rw [String.toList_ofList]
      exact List.cons_ne_nil _ _
    · rw [String.toList_ofList]
      exact List.forall_mem_cons.2 ⟨isAlphanum_toLower hchars.1, hchars.2⟩

/-! ## Segments -/

/-- There are words and they are more than a phrase. -/
def HasField (piece : List Word) : Prop :=
  piece ≠ [] ∧ ∀ p ∈ Keyword.phrases, piece.map Word.folded ≠ p.1

/-- The words of a segment are those of its field and the phrase that they end in. -/
inductive Reads (style : Style) : List Word → Segment → Prop
  | mk {field phrase : List Word} {text : String} {keyword : Keyword} (hfield : field ≠ [])
      (hphrase : EndsIn ((field ++ phrase).map Word.folded) (phrase.map Word.folded) keyword)
      (htext : Rejoined style (field.map Word.text) text) : Reads style (field ++ phrase) ⟨text, keyword⟩

/-- Why words are no segment, in a name of the given length: there are none, or they are a phrase. -/
inductive Fails (length : Nat) : List Word → ParseError → Prop
  | empty : Fails length [] (.emptySegment length)
  | phrase {piece : List Word} {keyword : Keyword}
      (hmem : (piece.map Word.folded, keyword) ∈ Keyword.phrases) :
      Fails length piece (.missingField keyword.head)

section

variable {style : Style} {length : Nat} {piece field phrase : List Word} {keyword : Keyword}

theorem ofWords_of_endsIn
    (h : EndsIn ((field ++ phrase).map Word.folded) (phrase.map Word.folded) keyword) :
    Segment.ofWords style length (field ++ phrase) =
      if field ++ phrase = [] then .error (.emptySegment length)
      else if field = [] then .error (.missingField keyword.head)
      else .ok ⟨fieldOf style (field.map Word.text), keyword⟩ := by
  have htake : (field ++ phrase).take ((field ++ phrase).length - phrase.length) = field := by
    rw [List.length_append, Nat.add_sub_cancel, List.take_left]
  rw [Segment.ofWords, h.trailingPhrase_eq]
  simp only [List.length_map, htake, List.isEmpty_iff]

/-- All words are those of a field, if any, and the phrase that they end in. -/
theorem exists_endsIn (piece : List Word) : ∃ field phrase keyword, piece = field ++ phrase ∧
    EndsIn ((field ++ phrase).map Word.folded) (phrase.map Word.folded) keyword := by
  have hends := endsIn_trailingPhrase (piece.map Word.folded)
  obtain ⟨before, hbefore⟩ := hends.suffix
  obtain ⟨field, phrase, rfl, -, hphrase⟩ := List.map_eq_append_iff.1 hbefore.symm
  rw [← hphrase] at hends
  exact ⟨field, phrase, _, rfl, hends⟩

theorem ofWords_eq_ok_iff {s : Segment} :
    Segment.ofWords style length piece = .ok s ↔ Reads style piece s := by
  constructor
  · intro h
    obtain ⟨field, phrase, keyword, rfl, hends⟩ := exists_endsIn piece
    rw [ofWords_of_endsIn hends] at h
    split at h
    · cases h
    split at h
    · cases h
    · rename_i hfield
      cases h
      exact .mk hfield hends ((rejoined_iff (mt List.map_eq_nil_iff.1 hfield)).2 rfl)
  · rintro ⟨hfield, hends, htext⟩
    rw [ofWords_of_endsIn hends, if_neg fun h => hfield (List.append_eq_nil_iff.1 h).1, if_neg hfield,
      (rejoined_iff (mt List.map_eq_nil_iff.1 hfield)).1 htext]

theorem ofWords_eq_error_iff {e : ParseError} :
    Segment.ofWords style length piece = .error e ↔ Fails length piece e := by
  constructor
  · intro h
    obtain ⟨field, phrase, keyword, rfl, hends⟩ := exists_endsIn piece
    rw [ofWords_of_endsIn hends] at h
    split at h
    · rename_i hempty
      cases h
      rw [hempty]
      exact .empty
    rename_i hne
    split at h
    · rename_i hfield
      cases h
      subst hfield
      exact .phrase (hends.mem (mt List.map_eq_nil_iff.1 hne))
    · cases h
  · rintro (_ | hmem)
    · rfl
    · have hends : EndsIn (([] ++ piece).map Word.folded) (piece.map Word.folded) _ :=
        .phrase hmem List.suffix_rfl fun p _ hp => hp.length_le
      have hne : [] ++ piece ≠ [] := fun h => phrase_ne_nil _ hmem (List.map_eq_nil_iff.2 h)
      exact (ofWords_of_endsIn hends).trans ((if_neg hne).trans (if_pos rfl))

theorem Reads.isNameText {s : Segment} (h : Reads style piece s) (hpiece : ∀ w ∈ piece, IsText w.text) :
    s.field.toList ≠ [] ∧ IsNameText s.field.toList := by
  obtain ⟨hfield, -, htext⟩ := h
  refine htext.isNameText (mt List.map_eq_nil_iff.1 hfield) (List.forall_mem_map.2 fun w hw => ?_)
  exact hpiece w (List.mem_append_left _ hw)

theorem hasField_iff : HasField piece ↔ ∃ s, Segment.ofWords style length piece = .ok s := by
  constructor
  · rintro ⟨hne, hphrases⟩
    cases h : Segment.ofWords style length piece with
    | ok s => exact ⟨s, rfl⟩
    | error e =>
      cases ofWords_eq_error_iff.1 h with
      | empty => exact absurd rfl hne
      | phrase hmem => exact absurd rfl (hphrases _ hmem)
  · rintro ⟨s, h⟩
    have hfails {e : ParseError} (he : Fails length piece e) : False := by
      cases h.symm.trans (ofWords_eq_error_iff.2 he)
    refine ⟨?_, fun p hp heq => ?_⟩
    · rintro rfl
      exact hfails .empty
    · have hmem : (piece.map Word.folded, p.2) ∈ Keyword.phrases := by
        rw [heq]
        exact hp
      exact hfails (.phrase hmem)

end

end QueryMethods.Name
