/-
Patterns as functions of an item store. A pattern is taken if it has no wildcard but a percent sign at its
end, or one at each end with something between them, and it is then said by an equality or by one of two
functions. What these hold of is the language of the pattern, which is also what the regular expression
finds that a store with dollar names is given for it.
-/
import QueryMethods.Proofs.Pattern.Around
import QueryMethods.Proofs.Pattern.Regex
import QueryMethods.Proofs.Reading.Meaning

namespace QueryMethods

/-! ## Patterns that can be said -/

/-- The text has no percent sign and no underscore. -/
def Wildless (text : String) : Prop :=
  '%' ∉ text.toList ∧ '_' ∉ text.toList

/-- A text without wildcards, alone or, unless it is empty, before a percent sign or between two. -/
inductive Expressible : String → Prop
  | whole {text : String} (h : Wildless text) : Expressible text
  | before {text : String} (hne : text ≠ "") (h : Wildless text) : Expressible (text ++ "%")
  | between {text : String} (hne : text ≠ "") (h : Wildless text) : Expressible ("%" ++ text ++ "%")

namespace TextTest

variable {p text : String} {test : TextTest}

theorem isPlain_iff : isPlain text.toList ↔ Wildless text := by
  rw [isPlain, List.all_eq_true, Wildless]
  constructor
  · intro h
    constructor <;> intro hmem <;> cases h _ hmem
  · rintro ⟨hpercent, hunderscore⟩ c hc
    rw [Bool.and_eq_true, bne_iff_ne, bne_iff_ne]
    exact ⟨fun heq => hpercent (heq ▸ hc), fun heq => hunderscore (heq ▸ hc)⟩

/-- A text that is looked for at a percent sign is not empty. -/
theorem text_ne_empty (h : ofPattern? p = some test) (hequals : test ≠ .equals p) : test.text ≠ "" := by
  unfold ofPattern? at h
  simp only at h
  split at h
  · cases h
    exact absurd rfl hequals
  · split at h
    · obtain ⟨text, hbefore, rfl⟩ := Option.map_eq_some_iff.1 h
      exact (beforePercent?_eq_some hbefore).2.1
    · obtain ⟨text, hbefore, rfl⟩ := Option.map_eq_some_iff.1 h
      exact (beforePercent?_eq_some hbefore).2.1

/-- A pattern stands for a test just if it can be said. -/
theorem exists_ofPattern?_iff : (∃ test, ofPattern? p = some test) ↔ Expressible p := by
  constructor
  · rintro ⟨test, h⟩
    have hwildless := isPlain_iff.1 (isPlain_text h)
    have hne := text_ne_empty h
    obtain ⟨rfl, -⟩ := ofPattern?_eq_some h
    cases test with
    | equals text => exact .whole hwildless
    | beginsWith text => exact .before (hne nofun) hwildless
    | contains text => exact .between (hne nofun) hwildless
  · have hnil {text : String} (hne : text ≠ "") : text.toList ≠ [] := mt String.toList_eq_nil_iff.1 hne
    intro h
    cases h with
    | whole h => exact ⟨_, ofPattern?_around .whole (isPlain_iff.2 h)⟩
    | before hne h => exact ⟨_, (ofPattern?_around .startsWith (isPlain_iff.2 h)).trans (if_neg (hnil hne))⟩
    | between hne h => exact ⟨_, (ofPattern?_around .contains (isPlain_iff.2 h)).trans (if_neg (hnil hne))⟩

/-- What a test asks of a text. -/
def Holds : TextTest → List Char → Prop
  | .equals text, s => s = text.toList
  | .beginsWith text, s => text.toList <+: s
  | .contains text, s => text.toList <:+: s

/-- The test of a pattern holds of the texts that the pattern stands for. -/
theorem holds_iff_accepts (h : ofPattern? p = some test) (s : List Char) :
    test.Holds s ↔ Pattern.Accepts p.toList s := by
  have hplain := isPlain_text h
  obtain ⟨rfl, -⟩ := ofPattern?_eq_some h
  have hfinds (kind : MatchKind) (text : String) (htext : isPlain text.toList) :
      Pattern.Accepts (kind.around text).toList s ↔ kind.Finds text.toList s := by
    simp only [kind.accepts_around_iff, Pattern.accepts_plain_iff htext, exists_eq_left]
  cases test with
  | equals text => exact (Pattern.accepts_plain_iff hplain).symm
  | beginsWith text => exact (hfinds .startsWith text hplain).symm
  | contains text => exact (hfinds .contains text hplain).symm

/-! ## Reading a test -/

/-- The functions of an item store. -/
def functions : List (String × (String → TextTest)) :=
  [("begins_with", beginsWith), ("contains", contains)]

/-- Reads a column and the test of it: an equality, or a function of the column and a text. -/
def read? : List Token → Option (String × TextTest)
  | [.path field, .word sign, .value (.str s)] => if sign = "=" then some (field, .equals s) else none
  | [.word function, .mark m, .path field, .mark m', .value (.str s), .mark m''] =>
    if m = '(' ∧ m' = ',' ∧ m'' = ')' then
      (functions.lookup function).map fun test => (field, test s)
    else none
  | _ => none

/-- The column of a filter and the test of it, with references followed. -/
def ofFilter? (f : Filter) : Option (String × TextTest) :=
  (Marking.tables.symbols? f).bind fun ss => read? (Symbol.tokens ss)

end TextTest

/-! ## Filters -/

namespace Grammar

/-- A test is read back as it was written. -/
theorem tells_textTest (field : String) (test : TextTest) :
    (textTest field test).Tells Marking.tables.refers fun ts =>
      TextTest.read? ts = some (field, test) := by
  have hq : Quiet Marking.tables.refers := Dialect.quiet_refers .itemExpression
  have hcol : IsColumn Marking.tables.refers Clause.path? field (aliasPath field) (.path field) :=
    isColumn_aliasPath rfl rfl field
  have hcall (function opening text : String) (hopening : isPlainText opening)
      (htokens : ∀ ss, Symbol.tokens (Symbol.ofText opening ++ ss) =
        .word function :: .mark '(' :: Symbol.tokens ss) {test : String → TextTest}
      (hfunction : TextTest.functions.lookup function = some test) :
      Template.Tells Marking.tables.refers (fun ts => TextTest.read? ts = some (field, test text))
        (Piece.text opening :: aliasPath field ++ [Piece.text ", ", .slot field (.str text), .text ")"]) := by
    obtain ⟨hclean, htokens⟩ := tokens_call hq hcol text hopening htokens
    refine ⟨hclean, ?_⟩
    rw [htokens, TextTest.read?, if_pos ⟨rfl, rfl, rfl⟩, hfunction]
    rfl
  cases test with
  | equals text =>
    have hsigned : Template.Tells Marking.tables.refers
        (· = [.path field, .word "=", .value (.str text)]) (textTest field (.equals text)) :=
      tokens_signed hcol "= " "=" [.value (.str text)] rfl (hq.silent rfl) ⟨trivial, trivial⟩ rfl
    refine ⟨hsigned.clean, ?_⟩
    rw [hsigned.tokens]
    rfl
  | beginsWith text => exact hcall "begins_with" "begins_with(" text rfl (fun _ => rfl) rfl
  | contains text => exact hcall "contains" "contains(" text rfl (fun _ => rfl) rfl

end Grammar

namespace Condition

variable (field p : String) (projection : List String)

theorem comparison_like : Grammar.itemExpression.comparison ⟨field, .like, .value (.str p)⟩ =
    match TextTest.ofPattern? p with
    | some test => .ok (Grammar.textTest field test)
    | none => .error (.unsupported (.operator .like) .itemExpression) :=
  rfl

/-- An item store has a filter for a pattern that stands for a test, and refuses the operator otherwise. -/
theorem toFilter_like : (compare field .like (.str p)).toFilter .itemExpression projection =
    match TextTest.ofPattern? p with
    | some test => .ok (Marking.tables.fill (Grammar.textTest field test)
        (projection.map Grammar.itemExpression.column))
    | none => .error (.unsupported (.operator .like) .itemExpression) := by
  show Except.map _ (Grammar.itemExpression.comparison ⟨field, .like, .value (.str p)⟩) = _
  rw [comparison_like]
  cases TextTest.ofPattern? p <;> rfl

/-- A store with dollar names is given an expression for the whole field. -/
theorem toFilter_like_dollarNamed : (compare field .like (.str p)).toFilter .dollarNamed projection =
    .ok (.text ("n." ++ field ++ " =~ $" ++ Placeholder.fresh [] field)
      (.named [(Placeholder.fresh [] field, .str (PatternStyle.anchored.write (some p)))])) := by
  have hquery (name : String) : String.join ["n." ++ field, " =~ ", "$" ++ name] =
      "n." ++ field ++ " =~ $" ++ name := by
    have hsigil : " =~ $" ++ name = " =~ " ++ ("$" ++ name) := by
      rw [← String.append_assoc]
      rfl
    rw [String.append_assoc, hsigil]
    simp [String.append_assoc]
  rw [← hquery]
  rfl

/-- An item store takes the patterns that can be said and refuses all others for the operator. The filter
of one that it takes tests the field, by equality or by one of two functions, for a text that is bound; the
test holds of the texts that the pattern stands for. They are those that a store with dollar names finds, if
there is no line feed in them and the pattern is not empty. -/
theorem functions_toFilter :
    ((∃ f, (compare field .like (.str p)).toFilter .itemExpression projection = .ok f) ↔ Expressible p) ∧
      (¬Expressible p → (compare field .like (.str p)).toFilter .itemExpression projection =
        .error (.unsupported (.operator .like) .itemExpression)) ∧
      ∀ f, (compare field .like (.str p)).toFilter .itemExpression projection = .ok f →
        ∃ test, TextTest.ofFilter? f = some (field, test) ∧
          (∀ s : String, test.Holds s.toList ↔ Pattern.Accepts p.toList s.toList) ∧
          (p ≠ "" → ∃ name regex e, (compare field .like (.str p)).toFilter .dollarNamed projection =
              .ok (.text ("n." ++ field ++ " =~ $" ++ name) (.named [(name, .str regex)])) ∧
            Regex.read? regex.toList = some e ∧
            ∀ s : String, '\n' ∉ s.toList → (test.Holds s.toList ↔ e.Finds s.toList)) := by
  rw [toFilter_like, ← TextTest.exists_ofPattern?_iff]
  cases htest : TextTest.ofPattern? p with
  | none =>
    refine ⟨iff_of_false ?_ nofun, fun _ => rfl, nofun⟩
    rintro ⟨f, hf⟩
    cases hf
  | some test =>
    refine ⟨iff_of_true ⟨_, rfl⟩ ⟨test, rfl⟩, fun h => absurd ⟨test, rfl⟩ h, fun f hf => ?_⟩
    cases hf
    have htells := Grammar.tells_textTest field test
    have haccepts := TextTest.holds_iff_accepts htest
    refine ⟨test, ?read, fun s => haccepts s.toList, fun hp => ?regex⟩
    case read =>
      rw [TextTest.ofFilter?, Marking.symbols?_fill _ htells.clean nofun]
      exact htells.tokens
    case regex =>
      refine ⟨_, _, _, toFilter_like_dollarNamed field p projection, Regex.read?_anchored p,
        fun s hs => ?_⟩
      have hempty : p.isEmpty = false := by simpa using hp
      rw [haccepts, hempty]
      exact (Regex.finds_anchored_iff hs).symm

/-- Between two percent signs a dot is a dot, and two percent signs in a row cannot be said. -/
theorem functions_percents :
    (∃ f test, (compare "name" .like (.str "%a.b%")).toFilter .itemExpression [] = .ok f ∧
      TextTest.ofFilter? f = some ("name", test) ∧ test.Holds "xa.b".toList ∧ ¬test.Holds "acb".toList) ∧
      ∀ p ∈ ["%", "%%", "a%%", "%a", "%a%b%", "a_"],
        (compare "name" .like (.str p)).toFilter .itemExpression [] =
          .error (.unsupported (.operator .like) .itemExpression) := by
  constructor
  · obtain ⟨haccepted, -, htests⟩ := functions_toFilter "name" "%a.b%" []
    have hdot : TextTest.ofPattern? "%a.b%" = some (.contains "a.b") := rfl
    obtain ⟨f, hf⟩ := haccepted.2 (TextTest.exists_ofPattern?_iff.1 ⟨_, hdot⟩)
    obtain ⟨test, htest, haccepts, -⟩ := htests f hf
    have hholds (s : String) : test.Holds s.toList ↔ "a.b".toList <:+: s.toList :=
      (haccepts s).trans (TextTest.holds_iff_accepts hdot s.toList).symm
    refine ⟨f, test, hf, htest, (hholds "xa.b").2 (by decide), mt (hholds "acb").1 (by decide)⟩
  · intro p hp
    have hnone : ∀ p ∈ ["%", "%%", "a%%", "%a", "%a%b%", "a_"], TextTest.ofPattern? p = none := by decide
    refine (functions_toFilter "name" p []).2.1 fun h => ?_
    obtain ⟨test, htest⟩ := TextTest.exists_ofPattern?_iff.2 h
    cases htest.symm.trans (hnone p hp)

end Condition

end QueryMethods
