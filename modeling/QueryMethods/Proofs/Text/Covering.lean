/-
Covered characters. Read from left to right, a backslash covers the character after it, which may be a
backslash and then covers nothing itself. What stands between two delimiters ends at the first delimiter
that is not covered. Covering the slashes of a text without a look at its backslashes takes the cover
from those that had one already, so a text makes a regular expression of its own exactly if it covers no
slash and its last backslash is covered or covers something.
-/
import QueryMethods.Filter.Inline
import QueryMethods.Proofs.Text.Redaction

namespace QueryMethods

namespace Text

/-! ## Covering -/

/-- Whether a backslash covers what comes after the text. The flag tells whether one covers the first
character. -/
def covering (covered : Bool) : List Char → Bool
  | [] => covered
  | c :: r => covering (c == '\\' && !covered) r

/-- The character stands somewhere in the text where a backslash covers it, or where none does. -/
def Stands (cover : Bool) (d : Char) (covered : Bool) (s : List Char) : Prop :=
  ∃ before after, s = before ++ d :: after ∧ covering covered before = cover

/-- The character stands somewhere in the text with no backslash that covers it. -/
def Bare (d : Char) (s : List Char) : Prop := Stands false d false s

/-- The character stands somewhere in the text with a backslash that covers it. -/
def Covered (d : Char) (s : List Char) : Prop := Stands true d false s

/-- The text ends in a backslash that covers what comes after it. -/
def Dangles (s : List Char) : Prop := covering false s = true

section

variable {cover covered : Bool} {c d : Char} {s t : List Char}

theorem covering_append (covered : Bool) (s t : List Char) :
    covering covered (s ++ t) = covering (covering covered s) t := by
  induction s generalizing covered with
  | nil => rfl
  | cons c s ih => exact ih _

theorem not_stands_nil : ¬Stands cover d covered [] := by
  rintro ⟨before, after, h, -⟩
  cases before <;> cases h

theorem stands_cons_iff :
    Stands cover d covered (c :: s) ↔
      covered = cover ∧ c = d ∨ Stands cover d (c == '\\' && !covered) s := by
  constructor
  · rintro ⟨before, after, h, hcover⟩
    cases before with
    | nil =>
      cases h
      exact .inl ⟨hcover, rfl⟩
    | cons x before =>
      cases h
      exact .inr ⟨before, after, rfl, hcover⟩
  · rintro (⟨rfl, rfl⟩ | ⟨before, after, rfl, hcover⟩)
    · exact ⟨[], s, rfl, rfl⟩
    · exact ⟨c :: before, after, rfl, hcover⟩

theorem stands_append_iff :
    Stands cover d covered (s ++ t) ↔
      Stands cover d covered s ∨ Stands cover d (covering covered s) t := by
  induction s generalizing covered with
  | nil => exact ⟨.inr, (·.resolve_left not_stands_nil)⟩
  | cons c s ih =>
    rw [List.cons_append, stands_cons_iff, stands_cons_iff, ih, or_assoc]
    rfl

end

/-! ## Between delimiters -/

/-- What stands before the first delimiter that is not covered, and what comes after that delimiter. -/
def body? (delimiter : Char) (covered : Bool) : List Char → Option (List Char × List Char)
  | [] => none
  | c :: r =>
    if c = delimiter ∧ covered = false then some ([], r)
    else (body? delimiter (c == '\\' && !covered) r).map fun p => (c :: p.1, p.2)

/-- The body of the literal that the text begins with, and what comes after the literal. -/
def literal? (delimiter : Char) : List Char → Option (List Char × List Char)
  | [] => none
  | c :: r => if c = delimiter then body? delimiter false r else none

section

variable {d : Char} {covered : Bool} {s body rest : List Char}

theorem body?_eq_some_iff :
    body? d covered s = some (body, rest) ↔
      s = body ++ d :: rest ∧ ¬Stands false d covered body ∧ covering covered body = false := by
  induction s generalizing covered body with
  | nil =>
    refine iff_of_false nofun ?_
    rintro ⟨h, -⟩
    cases body <;> cases h
  | cons c s ih =>
    rw [body?]
    split
    · rename_i hends
      obtain ⟨rfl, rfl⟩ := hends
      constructor
      · intro h
        cases h
        exact ⟨rfl, not_stands_nil, rfl⟩
      · rintro ⟨h, hstands, -⟩
        cases body with
        | nil => cases h; rfl
        | cons x body =>
          cases h
          exact absurd (stands_cons_iff.2 (.inl ⟨rfl, rfl⟩)) hstands
    · rename_i hgoes
      rw [Option.map_eq_some_iff]
      constructor
      · rintro ⟨⟨body, rest⟩, h, heq⟩
        cases heq
        obtain ⟨rfl, hstands, hcovering⟩ := ih.1 h
        refine ⟨rfl, fun h => ?_, hcovering⟩
        rcases stands_cons_iff.1 h with ⟨hcovered, hc⟩ | h
        · exact hgoes ⟨hc, hcovered⟩
        · exact hstands h
      · rintro ⟨h, hstands, hcovering⟩
        cases body with
        | nil =>
          cases h
          exact absurd ⟨rfl, hcovering⟩ hgoes
        | cons x body =>
          cases h
          have hrest : ¬Stands false d (c == '\\' && !covered) body :=
            fun h => hstands (stands_cons_iff.2 (.inr h))
          exact ⟨(body, rest), ih.2 ⟨rfl, hrest, hcovering⟩, rfl⟩

/-- A literal is closed right behind its body: no delimiter in it is bare, and it covers none after it. -/
theorem literal?_eq_some_iff :
    literal? d (d :: s) = some (body, rest) ↔ s = body ++ d :: rest ∧ ¬Bare d body ∧ ¬Dangles body := by
  rw [literal?, if_pos rfl, body?_eq_some_iff, Dangles, Bool.not_eq_true]
  rfl

/-- The body of a literal has no bare delimiter and covers none after it. -/
theorem IsBody.closed (hd : d ≠ '\\') (h : IsBody (fun _ => True) d s) : ¬Bare d s ∧ ¬Dangles s := by
  induction h with
  | nil => exact ⟨not_stands_nil, Bool.false_ne_true⟩
  | @plain c s hc hback _ ih =>
    have hflag : (c == '\\' && !false) = false := by rw [beq_false_of_ne hback, Bool.false_and]
    rw [Bare, Dangles, stands_cons_iff, covering, hflag]
    exact ⟨not_or.2 ⟨fun h => hc h.2, ih.1⟩, ih.2⟩
  | @covered c s _ _ ih =>
    -- The backslash covers `c`, whatever that is, and after it nothing is covered.
    have hflag : (c == '\\' && !true) = false := Bool.and_false _
    rw [Bare, Dangles, stands_cons_iff, stands_cons_iff]
    show ¬(_ ∨ _ ∨ Stands false d (c == '\\' && !true) s) ∧ ¬covering (c == '\\' && !true) s = true
    rw [hflag]
    have hcovered : ¬(true = false ∧ c = d) := fun h => Bool.false_ne_true h.1.symm
    exact ⟨not_or.2 ⟨fun h => hd h.2.symm, not_or.2 ⟨hcovered, ih.1⟩⟩, ih.2⟩

end

/-! ## Slashes -/

section

variable {covered : Bool} (s : List Char)

theorem coverSlashes_cons (c : Char) (s : List Char) :
    coverSlashes (c :: s) = (if c = '/' then ['\\', c] else [c]) ++ coverSlashes s :=
  List.flatMap_cons

theorem coverSlashes_append (s t : List Char) : coverSlashes (s ++ t) = coverSlashes s ++ coverSlashes t :=
  List.flatMap_append

theorem covering_coverSlashes : covering covered (coverSlashes s) = covering covered s := by
  induction s generalizing covered with
  | nil => rfl
  | cons c s ih =>
    rw [coverSlashes_cons]
    split
    · rename_i hc
      subst hc
      exact ih
    · exact ih

/-- The backslash put before a slash takes the cover from it if it had one, and gives it one if not. -/
theorem stands_coverSlashes : Stands false '/' covered (coverSlashes s) ↔ Stands true '/' covered s := by
  induction s generalizing covered with
  | nil => exact iff_of_false not_stands_nil not_stands_nil
  | cons c s ih =>
    rw [coverSlashes_cons, stands_cons_iff]
    split
    · rename_i hc
      subst hc
      show Stands false '/' covered ('\\' :: '/' :: coverSlashes s) ↔ _
      rw [stands_cons_iff, stands_cons_iff, ih]
      cases covered <;> simp
    · rename_i hc
      show Stands false '/' covered (c :: coverSlashes s) ↔ _
      rw [stands_cons_iff, ih]
      simp only [hc, and_false]

end

end Text

/-- Between slashes, the literal of a text has a bare slash exactly if a backslash of the text covers one,
and covers the closing slash exactly if the text would; without either it is closed at its end. A slash
that the text covers closes it early. -/
theorem Value.closes_regexLiteral (s : String) :
    (¬Text.Bare '/' (Value.str s).regexLiteral.toList ↔ ¬Text.Covered '/' s.toList) ∧
      (Text.Dangles (Value.str s).regexLiteral.toList ↔ Text.Dangles s.toList) ∧
      (∀ rest, Text.literal? '/' ('/' :: ((Value.str s).regexLiteral.toList ++ '/' :: rest)) =
          some ((Value.str s).regexLiteral.toList, rest) ↔
        ¬Text.Covered '/' s.toList ∧ ¬Text.Dangles s.toList) ∧
      ∀ before after, s.toList = before ++ '/' :: after → Text.Dangles before →
        ¬Text.Covered '/' before → ∀ rest,
          Text.literal? '/' ('/' :: ((Value.str s).regexLiteral.toList ++ '/' :: rest)) =
            some (Text.coverSlashes before ++ ['\\'], Text.coverSlashes after ++ '/' :: rest) := by
  have hbody : (Value.str s).regexLiteral.toList = Text.coverSlashes s.toList := String.toList_ofList
  have hbare (t : List Char) : ¬Text.Bare '/' (Text.coverSlashes t) ↔ ¬Text.Covered '/' t :=
    not_congr (Text.stands_coverSlashes t)
  have hdangles : Text.Dangles (Text.coverSlashes s.toList) ↔ Text.Dangles s.toList := by
    rw [Text.Dangles, Text.Dangles, Text.covering_coverSlashes]
  rw [hbody]
  refine ⟨hbare _, hdangles, fun rest => ?closed, fun before after hs hdangles hcovered rest => ?early⟩
  case closed => rw [Text.literal?_eq_some_iff, hbare, hdangles, and_iff_right rfl]
  case early =>
    have hlast : Text.covering false (Text.coverSlashes before) = true :=
      (Text.covering_coverSlashes before).trans hdangles
    rw [hs, Text.coverSlashes_append, Text.coverSlashes_cons, if_pos rfl, Text.literal?_eq_some_iff]
    refine ⟨by simp, ?_, ?_⟩
    · rw [Text.Bare, Text.stands_append_iff, hlast, Text.stands_cons_iff]
      have hcover : ¬(true = false ∧ '\\' = '/') := fun h => Bool.false_ne_true h.1.symm
      exact not_or.2 ⟨(hbare before).2 hcovered, not_or.2 ⟨hcover, Text.not_stands_nil⟩⟩
    · rw [Text.Dangles, Text.covering_append, hlast]
      exact Bool.false_ne_true

/-- A slash that has its backslash already is left bare by the one put before it. -/
theorem Value.regexLiteral_covered_slash :
    Text.Bare '/' (Value.str "\\/").regexLiteral.toList ∧
      Text.literal? '/' ('/' :: ((Value.str "\\/").regexLiteral.toList ++ ['/'])) =
        some (['\\', '\\'], ['/']) :=
  ⟨⟨['\\', '\\'], [], by decide, rfl⟩, by decide⟩

end QueryMethods
