/-
Query-string syntax. Read from left to right, what stands between double quotes is one phrase and what
stands between slashes one regular expression; in both a backslash takes the character after it along,
so that a quote or a slash after a backslash ends nothing. The literal of a value reads as one term,
whatever comes after it: the phrase of its text, a word, or alternatives that are terms themselves.
-/
import QueryMethods.Filter.Inline
import QueryMethods.Proofs.Pattern.Regex
import QueryMethods.Proofs.Separators

namespace QueryMethods

/-! ## Signs -/

/-- What a query string is read as: a phrase or a regular expression as a whole, and single characters
between them. -/
inductive Sign where
  | char (c : Char)
  | phrase (s : String)
  | regex (s : String)
  deriving DecidableEq

namespace Sign

/-- A text as the signs of its characters. -/
def ofText (s : String) : List Sign :=
  s.toList.map .char

/-- What a backslash and the character after it stand for: in a phrase for that character, in a
regular expression for both of them, unless the character is a slash. -/
def covered (delimiter c : Char) : List Char :=
  if delimiter = '"' ∨ c = '/' then [c] else ['\\', c]

/-- The sign for what stands between two delimiters. -/
def enclosed (delimiter : Char) (body : List Char) : Sign :=
  if delimiter = '"' then .phrase (String.ofList body) else .regex (String.ofList body)

/-- The signs of a text, given the delimiter that was opened and what was read since. A delimiter that
is not closed makes the text no query string. -/
def scan : Option (Char × List Char) → List Char → Option (List Sign)
  | none, [] => some []
  | none, c :: r =>
    if c = '"' ∨ c = '/' then scan (some (c, [])) r else (.char c :: ·) <$> scan none r
  | some _, [] => none
  | some (d, body), '\\' :: c :: r => scan (some (d, body ++ covered d c)) r
  | some (d, body), c :: r =>
    if c = d then (enclosed d body :: ·) <$> scan none r else scan (some (d, body ++ [c])) r

/-- The characters read as these signs, whatever comes after them. -/
def Reads (text : List Char) (ss : List Sign) : Prop :=
  ∀ r, scan none (text ++ r) = (ss ++ ·) <$> scan none r

theorem reads_nil : Reads [] [] := by
  intro r
  show scan none r = _
  cases scan none r <;> rfl

theorem Reads.append {text text' : List Char} {ss ss' : List Sign} (h : Reads text ss)
    (h' : Reads text' ss') : Reads (text ++ text') (ss ++ ss') := by
  intro r
  rw [List.append_assoc, h, h']
  cases scan none r <;> simp

theorem reads_char {c : Char} (h : c ≠ '"' ∧ c ≠ '/') : Reads [c] [.char c] := by
  intro r
  rw [List.singleton_append, scan, if_neg (not_or.2 h)]
  rfl

/-- A text without delimiters reads as its characters. -/
theorem reads_text {s : String} (h : s.toList.all fun c => c != '"' && c != '/') :
    Reads s.toList (ofText s) := by
  unfold ofText
  generalize s.toList = cs at h ⊢
  induction cs with
  | nil => exact reads_nil
  | cons c cs ih =>
    rw [List.all_cons, Bool.and_eq_true] at h
    exact (reads_char (by simpa using h.1)).append (ih h.2)

/-! ## Texts between delimiters -/

section Scan

variable {c d : Char} {body r : List Char}

theorem scan_covered : scan (some (d, body)) ('\\' :: c :: r) = scan (some (d, body ++ covered d c)) r := by
  rw [scan]

theorem scan_plain (hback : c ≠ '\\') (hd : c ≠ d) :
    scan (some (d, body)) (c :: r) = scan (some (d, body ++ [c])) r := by
  rw [scan]
  · exact if_neg hd
  · intro c' r' h
    exact absurd h hback

theorem scan_end (hd : d ≠ '\\') :
    scan (some (d, body)) (d :: r) = (enclosed d body :: ·) <$> scan none r := by
  rw [scan]
  · exact if_pos rfl
  · intro c' r' h
    exact absurd h hd

theorem scan_coverPhrase (s body : List Char) :
    scan (some ('"', body)) (Text.coverPhrase s ++ r) = scan (some ('"', body ++ s)) r := by
  induction s generalizing body with
  | nil => rw [List.append_nil]; rfl
  | cons c s ih =>
    rw [Text.coverPhrase, List.flatMap_cons, ← Text.coverPhrase, List.append_assoc,
      List.append_cons body c s]
    split
    · rw [← ih, List.cons_append, List.singleton_append, scan_covered]
      rfl
    · rename_i hc
      rw [not_or] at hc
      rw [← ih, List.singleton_append, scan_plain hc.2 hc.1]

/-- A text is read back from its phrase. -/
theorem reads_phrase (s : String) : Reads (Text.phrase s).toList [.phrase s] := by
  intro r
  have htext : (Text.phrase s).toList = '"' :: (Text.coverPhrase s.toList ++ ['"']) := by
    simp [Text.phrase]
  rw [htext, List.cons_append, scan, if_pos (.inl rfl), List.append_assoc, scan_coverPhrase,
    List.singleton_append, scan_end (by decide), enclosed, if_pos rfl, List.nil_append,
    String.ofList_toList]
  rfl

/-- A text in which every backslash has a character after it to take along, and never a slash. -/
inductive IsBody : List Char → Prop
  | nil : IsBody []
  | plain {c : Char} {p : List Char} (hc : c ≠ '\\') (h : IsBody p) : IsBody (c :: p)
  | covered {c : Char} {p : List Char} (hc : c ≠ '/') (h : IsBody p) : IsBody ('\\' :: c :: p)

theorem scan_coverSlashes {p : List Char} (h : IsBody p) :
    ∀ body, scan (some ('/', body)) (Text.coverSlashes p ++ r) = scan (some ('/', body ++ p)) r := by
  induction h with
  | nil => intro body; rw [List.append_nil]; rfl
  | @plain c p hc _ ih =>
    intro body
    rw [Text.coverSlashes, List.flatMap_cons, ← Text.coverSlashes, List.append_assoc,
      List.append_cons body c p]
    split
    · rename_i hslash
      subst hslash
      rw [← ih, List.cons_append, List.singleton_append, scan_covered]
      rfl
    · rename_i hslash
      rw [← ih, List.singleton_append, scan_plain hc hslash]
  | @covered c p hc _ ih =>
    intro body
    have hpair : covered '/' c = ['\\', c] := if_neg (not_or.2 ⟨by decide, hc⟩)
    rw [Text.coverSlashes, List.flatMap_cons, List.flatMap_cons, ← Text.coverSlashes, if_neg (by decide),
      if_neg hc, List.singleton_append, List.singleton_append, List.cons_append, List.cons_append,
      scan_covered, hpair, ih, List.append_assoc]
    rfl

/-- A regular expression is read back from its body between slashes. -/
theorem reads_regex {s : String} (h : IsBody s.toList) :
    Reads ('/' :: (Text.regexBody s).toList ++ ['/']) [.regex s] := by
  intro r
  have htext : (Text.regexBody s).toList = Text.coverSlashes s.toList := String.toList_ofList
  rw [htext, List.append_assoc, List.cons_append, scan, if_pos (.inr rfl), scan_coverSlashes h,
    List.singleton_append, scan_end (by decide), enclosed, if_neg (by decide), List.nil_append,
    String.ofList_toList]
  rfl

end Scan

/-- What a pattern is written as covers special characters only, and a slash is none. -/
theorem isBody_toRegex (p : List Char) : IsBody (Pattern.toRegex p) := by
  fun_induction Pattern.toRegex p with
  | case1 => exact .nil
  | case2 r ih => exact ih
  | case3 r _ ih => exact .plain (by decide) (.plain (by decide) ih)
  | case4 r ih => exact .plain (by decide) ih
  | case5 c r _ _ _ ih =>
    unfold Pattern.literal
    split
    · rename_i hc
      refine .covered ?_ ih
      rintro rfl
      exact absurd hc (by decide)
    · rename_i hc
      refine .plain ?_ ih
      rintro rfl
      exact hc (by decide)

theorem isBody_write (pattern : Option String) :
    IsBody (PatternStyle.unanchored.write pattern).toList := by
  cases pattern with
  | none => exact .nil
  | some p =>
    rw [PatternStyle.write, String.toList_ofList]
    exact isBody_toRegex p.toList

end Sign

/-! ## Words -/

/-- The characters of numbers, dots and signs included, and of names. -/
def isWordChar (c : Char) : Bool :=
  c.isAlphanum || c == '.' || c == '-'

/-- The text is a word, which needs no quotes. -/
structure IsWord (s : String) : Prop where
  ne_empty : s ≠ ""
  chars : s.toList.all isWordChar

theorem isWordChars_append {s t : String} (hs : s.toList.all isWordChar)
    (ht : t.toList.all isWordChar) : (s ++ t).toList.all isWordChar := by
  rw [String.toList_append, List.all_append, hs, ht]
  rfl

theorem IsWord.append {s t : String} (hs : IsWord s) (ht : t.toList.all isWordChar) :
    IsWord (s ++ t) where
  ne_empty h := hs.ne_empty (String.append_eq_empty_iff.1 h).1
  chars := isWordChars_append hs.chars ht

theorem IsWord.prepend {s t : String} (ht : IsWord t) (hs : s.toList.all isWordChar) :
    IsWord (s ++ t) where
  ne_empty h := ht.ne_empty (String.append_eq_empty_iff.1 h).2
  chars := isWordChars_append hs ht.chars

theorem IsWord.reads {s : String} (h : IsWord s) : Sign.Reads s.toList (Sign.ofText s) := by
  refine Sign.reads_text (List.all_eq_true.2 fun c hc => ?_)
  have hword := List.all_eq_true.1 h.chars c hc
  have hquote : c ≠ '"' := by
    rintro rfl
    cases hword
  have hslash : c ≠ '/' := by
    rintro rfl
    cases hword
  simp [hquote, hslash]

theorem isWord_natDigits (n : Nat) : IsWord (toString n) := by
  have htext : (toString n).toList = Nat.toDigits 10 n := by
    rw [Nat.toString_eq_repr, Nat.repr_eq_ofList_toDigits, String.toList_ofList]
  refine ⟨fun h => ?_, List.all_eq_true.2 fun c hc => ?_⟩
  · rw [h] at htext
    exact absurd htext.symm Nat.toDigits_ne_nil
  · rw [htext] at hc
    have hdigit := Nat.isDigit_of_mem_toDigits (by decide) (by decide) hc
    rw [isWordChar, Char.isAlphanum, hdigit, Bool.or_true, Bool.true_or, Bool.true_or]

theorem isWord_intDigits (n : Int) : IsWord (toString n) := by
  cases n with
  | ofNat n => exact isWord_natDigits n
  | negSucc n =>
    have hminus : IsWord "-" := ⟨by decide, rfl⟩
    exact hminus.append (isWord_natDigits (n + 1)).chars

theorem isWordChars_zeros (n : Nat) : (zeros n).toList.all isWordChar := by
  rw [zeros, String.toList_ofList]
  refine List.all_eq_true.2 fun c hc => ?_
  rw [List.eq_of_mem_replicate hc]
  rfl

theorem isWord_positional (d : Decimal) : IsWord d.positional := by
  have hdigits := isWord_natDigits d.coefficient
  unfold Decimal.positional
  dsimp only
  split
  · exact hdigits.append (isWordChars_zeros _)
  · split
    · -- A dot stands between the first and the last of the digits.
      have hdot : IsWord "." := ⟨by decide, rfl⟩
      have hsome {cs : List Char} (h : ∀ c ∈ cs, c ∈ (toString d.coefficient).toList) :
          (String.ofList cs).toList.all isWordChar := by
        rw [String.toList_ofList]
        exact List.all_eq_true.2 fun c hc => List.all_eq_true.1 hdigits.chars c (h c hc)
      exact (hdot.prepend (hsome fun _ => List.mem_of_mem_take)).append
        (hsome fun _ => List.mem_of_mem_drop)
    · have hzero : IsWord "0." := ⟨by decide, rfl⟩
      exact (hzero.append (isWordChars_zeros _)).append hdigits.chars

theorem isWord_float (x : Binary64) : IsWord x.render := by
  unfold Binary64.render
  dsimp only
  split
  · exact ⟨by decide, rfl⟩
  · have hmagnitude : IsWord
        (if x.isInfinite then "inf" else if x.isZero then "0" else x.shortest.positional) := by
      split
      · exact ⟨by decide, rfl⟩
      · split
        · exact ⟨by decide, rfl⟩
        · exact isWord_positional x.shortest
    split
    · exact hmagnitude.prepend rfl
    · exact hmagnitude

/-! ## Literals -/

/-- One value to look for, or alternatives between parentheses. -/
inductive IsTerm : List Sign → Prop
  | phrase (s : String) : IsTerm [.phrase s]
  | word {s : String} (h : IsWord s) : IsTerm (Sign.ofText s)
  | group {terms : List (List Sign)} (h : ∀ t ∈ terms, IsTerm t) :
      IsTerm (Sign.ofText "(" ++ (Sign.ofText " OR ").intercalate terms ++ Sign.ofText ")")

namespace Value

mutual

/-- The signs of a value: the phrase of its text for texts, dates and maps, alternatives for a list,
and a word for any other. -/
def signs : Value → List Sign
  | .str s => [.phrase s]
  | .date d => [.phrase d.render]
  | .map entries => [.phrase (Value.map entries).render]
  | .list items =>
    Sign.ofText "(" ++ (Sign.ofText " OR ").intercalate (signsOf items) ++ Sign.ofText ")"
  | v => Sign.ofText v.render

/-- The signs of each of some values. -/
def signsOf : List Value → List (List Sign)
  | [] => []
  | v :: r => signs v :: signsOf r

end

theorem isWord_bool (b : Bool) : IsWord (Value.bool b).render := by
  cases b <;> exact ⟨by decide, rfl⟩

theorem isWord_null : IsWord Value.null.render := ⟨by decide, rfl⟩

mutual

theorem isTerm_signs : ∀ v : Value, IsTerm v.signs
  | .str s => .phrase s
  | .date d => .phrase d.render
  | .map entries => .phrase (Value.map entries).render
  | .list items => .group (isTerm_signsOf items)
  | .null => .word isWord_null
  | .bool b => .word (isWord_bool b)
  | .int n => .word (isWord_intDigits n.toInt)
  | .float x => .word (isWord_float x)

theorem isTerm_signsOf : ∀ vs : List Value, ∀ t ∈ signsOf vs, IsTerm t
  | [] => nofun
  | v :: vs => List.forall_mem_cons.2 ⟨isTerm_signs v, isTerm_signsOf vs⟩

end

mutual

/-- The literal of a value reads as its signs. -/
theorem reads_literal : ∀ v : Value, Sign.Reads v.literal.toList v.signs
  | .str s => Sign.reads_phrase s
  | .date d => Sign.reads_phrase d.render
  | .map entries => Sign.reads_phrase (Value.map entries).render
  | .list items => by
    have hopening : Sign.Reads "(".toList (Sign.ofText "(") := Sign.reads_text rfl
    have hclosing : Sign.Reads ")".toList (Sign.ofText ")") := Sign.reads_text rfl
    rw [literal, signs, String.toList_append, String.toList_append]
    exact (hopening.append (reads_literals items)).append hclosing
  | .null => isWord_null.reads
  | .bool b => (isWord_bool b).reads
  | .int n => (isWord_intDigits n.toInt).reads
  | .float x => (isWord_float x).reads

/-- The literals of a list read as the signs of its items, with the word between them. -/
theorem reads_literals : ∀ vs : List Value,
    Sign.Reads (" OR ".intercalate (literals vs)).toList ((Sign.ofText " OR ").intercalate (signsOf vs))
  | [] => Sign.reads_nil
  | [v] => by
    rw [literals, literals, signsOf, signsOf, String.intercalate_singleton, List.intercalate_singleton]
    exact reads_literal v
  | v :: w :: vs => by
    have hor : Sign.Reads " OR ".toList (Sign.ofText " OR ") := Sign.reads_text rfl
    have hothers := reads_literals (w :: vs)
    rw [literals, signsOf] at hothers ⊢
    rw [literals, signsOf, String.intercalate_cons_cons, List.intercalate_cons_cons,
      String.toList_append, String.toList_append]
    exact ((reads_literal v).append hor).append hothers

end

end Value

end QueryMethods
