/-
The meaning of a filter. In every infix dialect the text of a filter is read back as a formula over
comparisons that is true when its condition is, whatever the truth of the comparisons.
-/
import QueryMethods.Proofs.Condition.Operand
import QueryMethods.Proofs.Pattern.TextTest
import QueryMethods.Proofs.Reading.Comparisons

namespace QueryMethods

/-! ## What comparisons say -/

namespace Comparison

/-- A range as its two bounds. -/
def bounded (k : Comparison) : Formula Comparison :=
  match k.op, k.operand with
  | .between, .range lo hi =>
    .and (.atom ⟨k.field, .greaterEqual, .value lo⟩) (.atom ⟨k.field, .lessEqual, .value hi⟩)
  | _, _ => .atom (k.written .native)

theorem bounded_of_not_isRange {k : Comparison} (h : ¬k.IsRange) :
    k.bounded = .atom (k.written .native) := by
  unfold bounded
  split
  · rename_i lo hi hop hoperand
    exact absurd ⟨hop, lo, hi, hoperand⟩ h
  · rfl

/-- A pattern without wildcards as the text itself. -/
def tested (k : Comparison) : Comparison :=
  match k.op, (k.written .native).operand with
  | .like, .value (.str p) =>
    ⟨k.field, if TextTest.isPlain p.toList then .equal else .like, .value (.str p)⟩
  | _, _ => k

theorem tested_of_not_isPattern {k : Comparison} (h : ¬k.IsPattern) :
    k.tested = k.written .native := by
  obtain ⟨field, op, operand⟩ := k
  cases op with
  | like =>
    cases operand with
    | value v => exact absurd ⟨rfl, v, rfl⟩ h
    | range lo hi => rfl
  | _ => rfl

end Comparison

namespace Dialect

/-- What the text of a dialect says for a comparison: the comparison itself, but for a range that is
written as two comparisons and a pattern in the dialect's own style. -/
def said : Dialect → Comparison → Formula Comparison
  | .atNamed, k | .driverPositional, k => k.bounded
  | .dollarNamed, k => .atom (k.written .anchored)
  | .searchIndex, k => .atom (k.written .unanchored)
  | .itemExpression, k => .atom k.tested
  | _, k => .atom (k.written .native)

end Dialect

/-- The grammar is legible by a reader of clauses, with the references, meanings and fields of its
dialect. -/
def Grammar.LegibleBy (g : Grammar) (clause : ClauseReader) : Prop :=
  g.Legible g.dialect.marking.refers clause g.dialect.said g.dialect.IsField

/-- The formula that a filter is read as, once its references are followed. -/
def Marking.read (m : Marking) (clause : ClauseReader) (f : Filter) : Option (Formula Comparison) :=
  (m.symbols? f).bind fun ss => (clause.lexemes (Symbol.tokens ss)).bind Formula.read

/-! ## Comparisons of one dialect -/

namespace Grammar

variable {refers : Char → Bool} {clause : ClauseReader} {column? : Token → Option String}
  {lists : Clause.ListForm} {field : String} {col : Template} {c : Token} {k : Comparison}

/-- Two comparisons with an AND between them say both bounds of a range. -/
theorem tells_bounds {g : Grammar} (hq : Quiet refers)
    (hclause : Clause.ReadsSigned clause column? lists) (hsigns : g.HasSigns)
    (hsymbol : g.symbol .greaterEqual = ">=" ∧ g.symbol .lessEqual = "<=")
    (hcol : IsColumn refers column? field col c) (lo hi : Value) :
    Template.Tells refers (clause.IsFactor fun holds =>
        ((Comparison.mk field .between (.range lo hi)).bounded).eval holds)
      (col ++ [Piece.text " >= ", low field lo] ++ .text " AND " ::
        (col ++ [Piece.text " <= ", high field hi])) := by
  have hlow := tells_value hq hclause hsigns hcol .greaterEqual ⟨nofun, nofun⟩ (field ++ "_lo") lo
  have hhigh := tells_value hq hclause hsigns hcol .lessEqual ⟨nofun, nofun⟩ (field ++ "_hi") hi
  rw [hsymbol.1] at hlow
  rw [hsymbol.2] at hhigh
  exact hlow.and hq hhigh

/-- A column between two bounds. -/
theorem tells_chain (hq : Quiet refers) (hcol : IsColumn refers column? field col c) (lo hi : Value)
    (hclause : ∀ rest, clause (.value lo :: .word "<=" :: c :: .word "<=" :: .value hi :: rest) =
      some (⟨field, .between, .range lo hi⟩, rest)) :
    Template.Tells refers (clause.IsFactor fun holds => holds ⟨field, .between, .range lo hi⟩)
      (low field lo :: Piece.text " <= " :: (col ++ [Piece.text " <= ", high field hi])) := by
  have hbelow : Template.Clean refers [Piece.text " <= ", high field hi] :=
    ⟨hq.silent rfl, trivial, trivial⟩
  have htokens : Symbol.tokens (Template.symbols (low field lo :: Piece.text " <= " ::
      (col ++ [Piece.text " <= ", high field hi]))) =
        .value lo :: .word "<=" :: c :: [.word "<=", .value hi] := by
    show .value lo :: .word "<=" ::
      Symbol.tokens (Template.symbols (col ++ [Piece.text " <= ", high field hi])) = _
    rw [Template.symbols_append]
    show _ :: _ :: Symbol.tokens (col.symbols ++ .char ' ' :: (Symbol.ofText "<= " ++ [.value hi])) = _
    rw [Symbol.tokens_append (e := .char ' ') rfl, hcol.tokens]
    rfl
  refine ⟨⟨Template.opens_text rfl rfl _, hq.silent rfl, ?_⟩, ?_⟩
  · exact Template.clean_append hcol.clean hbelow (Template.opens_text rfl rfl _)
  · rw [htokens]
    exact ClauseReader.isFactor_clause rfl hclause

/-- The tokens of a function of a column and a text. -/
theorem tokens_call (hq : Quiet refers) (hcol : IsColumn refers column? field col c) (text : String)
    {opening function : String} (hopening : isPlainText opening)
    (htokens : ∀ ss, Symbol.tokens (Symbol.ofText opening ++ ss) =
      .word function :: .mark '(' :: Symbol.tokens ss) :
    Template.Tells refers
      (· = [.word function, .mark '(', c, .mark ',', .value (.str text), .mark ')'])
      (Piece.text opening :: col ++ [Piece.text ", ", .slot field (.str text), .text ")"]) := by
  have hargument : Template.Clean refers [Piece.text ", ", .slot field (.str text), .text ")"] :=
    ⟨hq.silent rfl, Template.opens_text rfl rfl _, hq.silent rfl, trivial⟩
  refine ⟨⟨hq.silent hopening, ?_⟩, ?_⟩
  · exact Template.clean_append hcol.clean hargument (Template.opens_text rfl rfl _)
  · rw [List.cons_append, Template.symbols_cons, Piece.symbols, htokens, Template.symbols_append]
    show _ :: _ :: Symbol.tokens (col.symbols ++
      .char ',' :: (Symbol.ofText " " ++ .value (.str text) :: Symbol.ofText ")")) = _
    rw [Symbol.tokens_append (e := .char ',') rfl, hcol.tokens]
    rfl

/-- A function of a column and a text. -/
theorem tells_call (hq : Quiet refers) (hcol : IsColumn refers column? field col c) (text : String)
    {opening function : String} (hopening : isPlainText opening)
    (htokens : ∀ ss, Symbol.tokens (Symbol.ofText opening ++ ss) =
      .word function :: .mark '(' :: Symbol.tokens ss)
    (hfree : (Token.word function).connective? = none)
    (hclause : ∀ rest, clause (.word function :: .mark '(' :: c :: .mark ',' ::
      .value (.str text) :: .mark ')' :: rest) = some (k, rest)) :
    Template.Tells refers (clause.IsFactor fun holds => holds k)
      (Piece.text opening :: col ++ [Piece.text ", ", .slot field (.str text), .text ")"]) := by
  obtain ⟨hclean, hall⟩ := tokens_call hq hcol text hopening htokens
  refine ⟨hclean, ?_⟩
  rw [hall]
  exact ClauseReader.isFactor_clause hfree hclause

/-- A pattern that an item store can test for. -/
theorem tells_test (hq : Quiet refers)
    (hclause : Clause.ReadsSigned (Dialect.clause .itemExpression) Clause.path? (.items '(' ')'))
    (hcol : IsColumn refers Clause.path? field (aliasPath field) (.path field)) {v : Value}
    {t : Template} (ht : itemExpression.comparison ⟨field, .like, .value v⟩ = .ok t) :
    t.Tells refers ((Dialect.clause .itemExpression).IsFactor fun holds =>
      holds (Comparison.mk field .like (.value v)).tested) := by
  obtain ⟨pattern, hpattern, ht⟩ := ok_of_bind ht
  have hwritten := Comparison.written_of_pattern hpattern
  split at ht
  · rename_i test htest
    cases ht
    obtain ⟨hp, hplain⟩ := TextTest.ofPattern?_eq_some htest
    have htested : (Comparison.mk field .like (.value v)).tested =
        ⟨field, if TextTest.isPlain pattern.toList then .equal else .like, .value (.str pattern)⟩ := by
      rw [Comparison.tested, hwritten]
    rw [htested]
    -- The pattern has no wildcard just when the test is that of the whole text.
    cases test with
    | equals text =>
      cases hp
      rw [if_pos (hplain.2 rfl)]
      exact tells_signed hclause hcol "= " "=" [.value (.str text)] rfl (hq.silent rfl)
        ⟨trivial, trivial⟩ rfl fun rest => rfl
    | beginsWith text =>
      cases hp
      rw [if_neg fun h => nomatch hplain.1 h]
      exact tells_call hq hcol text rfl (fun _ => rfl) rfl fun rest => rfl
    | contains text =>
      cases hp
      rw [if_neg fun h => nomatch hplain.1 h]
      exact tells_call hq hcol text rfl (fun _ => rfl) rfl fun rest => rfl
  · cases ht

/-- A field, a colon and what is looked for. -/
theorem tells_sought {d : Dialect} (hf : d.IsField field) (hd : d.reserved = ["AND", "OR", "NOT"])
    (hsilent : Silent refers field ∧ Silent refers ":") {before : String}
    (hbefore : Silent refers before) {u : Template} (hclean : u.Clean refers) (ts : List Token)
    (htokens : Symbol.tokens (Symbol.ofText before ++ u.symbols) = ts)
    (hread : ∀ rest, Clause.sought? field (ts ++ rest) = some (k, rest)) :
    Template.Tells refers (ClauseReader.IsFactor Clause.search fun holds => holds k)
      (Piece.text (field ++ ":" ++ before) :: u) := by
  have hall : Symbol.tokens (Template.symbols (Piece.text (field ++ ":" ++ before) :: u)) =
      .word field :: .mark ':' :: ts := by
    rw [Template.symbols_cons, Piece.symbols, Symbol.ofText_append, Symbol.ofText_append,
      List.append_assoc, List.append_assoc]
    show Symbol.tokens (Symbol.ofText field ++ .char ':' :: (Symbol.ofText before ++ u.symbols)) = _
    rw [Symbol.tokens_word_append hf.ends hf.ne_empty (e := .char ':') rfl, htokens]
    rfl
  refine ⟨⟨(hsilent.1.append hsilent.2).append hbefore, hclean⟩, ?_⟩
  rw [hall]
  refine ClauseReader.isFactor_clause (connective?_word (hd ▸ hf.free)) fun rest => ?_
  exact hread rest

/-- Values with an OR between them in parentheses, of which there must be one. -/
theorem tells_alternatives {d : Dialect} (hq : Quiet refers) (hf : d.IsField field)
    (hd : d.reserved = ["AND", "OR", "NOT"]) (hsilent : Silent refers field ∧ Silent refers ":")
    (items : List Value) (hne : items ≠ []) :
    Template.Tells refers
      (ClauseReader.IsFactor Clause.search fun holds => holds ⟨field, .oneOf, .value (.list items)⟩)
      (Piece.text (field ++ ":" ++ "(") :: (slotsBetween " OR " field items ++ [.text ")"])) := by
  have hor := isSeparator_or hq
  refine tells_sought hf hd hsilent (hq.silent rfl) ?_
    (.mark '(' :: (Clause.between (.word "OR") items ++ [.mark ')'])) ?_ fun rest => ?_
  · exact Template.clean_append (clean_slotsBetween hor field items)
      ⟨hq.silent rfl, trivial⟩ (Template.opens_text rfl rfl _)
  · rw [Template.symbols_append]
    show .mark '(' :: Symbol.tokens ((slotsBetween " OR " field items).symbols ++ _) = _
    rw [tokens_slotsBetween hor]
    rfl
  · have hread : Clause.items? (Token.isWord "OR") ')'
        (Clause.between (.word "OR") items ++ .mark ')' :: rest) = some (items, rest) :=
      Clause.items?_between rfl rfl items hne rest
    have hin (r : List Token) : Clause.sought? field (.mark '(' :: r) =
        (fun p => (Comparison.mk field .oneOf (.value (.list p.1)), p.2)) <$>
          Clause.items? (Token.isWord "OR") ')' r := rfl
    rw [List.cons_append, List.append_assoc, hin]
    exact congrArg _ hread

/-! ## Legible dialects -/

variable {var : String}

theorem legible_atNamed (hvar : ∀ c ∈ var.toList, isFieldChar c) :
    (atNamed var).LegibleBy (Clause.signed (Clause.member? var) .whole) where
  quiet := Dialect.quiet_refers .atNamed
  junction := rfl
  negation := rfl
  comparison {k t} hfield ht := by
    have hq := Dialect.quiet_refers .atNamed
    have hclause := Clause.readsSigned_signed (Clause.member? var) .whole
    have hsigns := hasSigns_atNamed var
    have hcol := isColumn_member hq hfield hvar
    by_cases hrange : k.IsRange
    · obtain ⟨field, op, operand⟩ := k
      obtain ⟨rfl, lo, hi, rfl⟩ := hrange
      cases ht
      -- The parentheses and the texts beside the columns are put together in the grammar's template.
      have hgroup := ((tells_bounds hq hclause hsigns ⟨rfl, rfl⟩ hcol lo hi).isSum).grouped hq
      exact (((hgroup.joined []).joined []).joined [_, _]).joined [_, _]
    · show t.Tells _ (ClauseReader.IsFactor _ fun holds => (Comparison.bounded k).eval holds)
      rw [Comparison.bounded_of_not_isRange hrange]
      have hspecial := hasRulesFor_atNamed var hrange
      exact tells_comparison hq hclause hsigns hcol hspecial (fun _ => rfl) ht

theorem legible_driverPositional :
    driverPositional.LegibleBy (Dialect.clause .driverPositional) where
  quiet := Dialect.quiet_refers .driverPositional
  junction := rfl
  negation := rfl
  comparison {k t} hfield ht := by
    have hq := Dialect.quiet_refers .driverPositional
    have hclause := Clause.readsSigned_signed Clause.bare? .whole
    have hsigns : driverPositional.HasSigns := fun _ => isSign_symbol
    have hcol := isColumn_bare hq hfield rfl
    by_cases hrange : k.IsRange
    · obtain ⟨field, op, operand⟩ := k
      obtain ⟨rfl, lo, hi, rfl⟩ := hrange
      cases ht
      have hbounds := tells_bounds hq hclause hsigns ⟨rfl, rfl⟩ hcol lo hi
      exact ((hbounds.joined []).joined [_, _]).joined [_, _]
    · show t.Tells _ (ClauseReader.IsFactor _ fun holds => (Comparison.bounded k).eval holds)
      rw [Comparison.bounded_of_not_isRange hrange]
      have hspecial := hasRulesFor_driverPositional hrange
      exact tells_comparison hq hclause hsigns hcol hspecial (fun _ => rfl) ht

theorem legible_dollarNamed (hvar : ∀ c ∈ var.toList, isFieldChar c) :
    (dollarNamed var).LegibleBy (Clause.chained (Clause.member? var)) where
  quiet := Dialect.quiet_refers .dollarNamed
  junction := rfl
  negation := rfl
  comparison {k t} hfield ht := by
    have hq := Dialect.quiet_refers .dollarNamed
    -- A chain begins with a value and never with a column, so the second reader is the one that reads.
    have hclause : Clause.ReadsSigned (Clause.chained (Clause.member? var)) (Clause.member? var)
        .whole := by
      intro c field sign r hc
      cases c with
      | word w => exact Clause.readsSigned_signed _ _ (.word w) field sign r hc
      | _ => cases hc
    have hsigns := hasSigns_dollarNamed var
    have hcol := isColumn_member hq hfield hvar
    by_cases hrange : k.IsRange
    · obtain ⟨field, op, operand⟩ := k
      obtain ⟨rfl, lo, hi, rfl⟩ := hrange
      cases ht
      have hread (rest : List Token) : Clause.chained (Clause.member? var)
          (.value lo :: .word "<=" :: .word (member var field) :: .word "<=" :: .value hi :: rest) =
            some (⟨field, .between, .range lo hi⟩, rest) := by
        show (Clause.chain _ _ <|> _) = _
        simp only [Clause.chain, Token.isWord, hcol.read]
        rfl
      exact ((tells_chain hq hcol lo hi hread).joined [_]).joined [_]
    · have hspecial := hasRulesFor_dollarNamed var hrange
      exact tells_comparison hq hclause hsigns hcol hspecial (fun _ => rfl) ht

theorem legible_expressionPositional :
    expressionPositional.LegibleBy (Dialect.clause .expressionPositional) where
  quiet := Dialect.quiet_refers .expressionPositional
  junction := rfl
  negation := rfl
  comparison {k t} hfield ht := by
    have hq := Dialect.quiet_refers .expressionPositional
    have hclause := Clause.readsSigned_signed Clause.quoted? (.items '[' ']')
    have hsigns : expressionPositional.HasSigns := fun _ => isSign_symbol
    have hcol := isColumn_quoted hq hfield
    by_cases hlist : k.IsList
    · obtain ⟨field, op, operand⟩ := k
      obtain ⟨rfl, v, rfl⟩ := hlist
      obtain ⟨items, hitems, ht⟩ := ok_of_bind ht
      cases ht
      rw [Value.ok_of_requireList hitems]
      have hwritten := tells_items " IN [" "IN [" "]" hq hclause hcol items ⟨rfl, rfl⟩
        (fun _ => rfl) ⟨rfl, by decide, rfl, by decide⟩ rfl
      exact hwritten.joined []
    · have hspecial := hasRulesFor_expressionPositional hlist
      exact tells_comparison hq hclause hsigns hcol hspecial (fun h => absurd h hlist) ht

theorem legible_relationalPositional :
    relationalPositional.LegibleBy (Dialect.clause .relationalPositional) where
  quiet := Dialect.quiet_refers .relationalPositional
  junction := rfl
  negation := rfl
  comparison {k t} hfield ht := by
    have hq := Dialect.quiet_refers .relationalPositional
    have hclause := Clause.readsSigned_signed Clause.bare? (.items '(' ')')
    have hsigns : relationalPositional.HasSigns := fun _ => isSign_symbol
    have hcol := isColumn_bare hq hfield rfl
    by_cases hlist : k.IsList
    · obtain ⟨field, op, operand⟩ := k
      obtain ⟨rfl, v, rfl⟩ := hlist
      obtain ⟨items, hitems, ht⟩ := ok_of_bind ht
      cases ht
      rw [(Value.ok_of_requireItems hitems).1]
      have hwritten := tells_items " IN (" "IN (" ")" hq hclause hcol items ⟨rfl, rfl⟩
        (fun _ => rfl) ⟨rfl, by decide, rfl, by decide⟩ rfl
      exact hwritten.joined []
    · have hspecial := hasRulesFor_relationalPositional hlist
      exact tells_comparison hq hclause hsigns hcol hspecial (fun h => absurd h hlist) ht

theorem legible_relationalNamed : relationalNamed.LegibleBy (Dialect.clause .relationalNamed) where
  quiet := Dialect.quiet_refers .relationalNamed
  junction := rfl
  negation := rfl
  comparison {k t} hfield ht := by
    have hq := Dialect.quiet_refers .relationalNamed
    have hclause := Clause.readsSigned_signed Clause.bare? .spread
    have hsigns : relationalNamed.HasSigns := fun _ => isSign_symbol
    have hcol := isColumn_bare hq hfield rfl
    by_cases hlist : k.IsList
    · obtain ⟨field, op, operand⟩ := k
      obtain ⟨rfl, v, rfl⟩ := hlist
      obtain ⟨items, hitems, ht⟩ := ok_of_bind ht
      cases ht
      -- The parentheses belong to the text, and the one value between them is the whole list.
      have hspread := tells_signed (u := [.slot field v, .text ")"]) hclause hcol "IN (" "IN"
        [.mark '(', .value v, .mark ')'] (s := " IN (") rfl (hq.silent rfl)
        ⟨Template.opens_text rfl rfl _, hq.silent rfl, trivial⟩ rfl fun rest => rfl
      exact hspread.joined []
    · have hspecial := hasRulesFor_relationalNamed hlist
      exact tells_comparison hq hclause hsigns hcol hspecial (fun h => absurd h hlist) ht

theorem legible_itemExpression : itemExpression.LegibleBy (Dialect.clause .itemExpression) where
  quiet := Dialect.quiet_refers .itemExpression
  junction := rfl
  negation := rfl
  comparison {k t} hfield ht := by
    have hq := Dialect.quiet_refers .itemExpression
    have hclause : Clause.ReadsSigned (Dialect.clause .itemExpression) Clause.path?
        (.items '(' ')') := by
      intro c field sign r hc
      cases c with
      | path p => exact Clause.readsSigned_signed _ _ (.path p) field sign r hc
      | _ => cases hc
    have hsigns : itemExpression.HasSigns := fun _ => isSign_symbol
    have hcol : IsColumn (Dialect.marking .itemExpression).refers Clause.path? k.field
        (aliasPath k.field) (.path k.field) := isColumn_aliasPath rfl rfl k.field
    by_cases hpattern : k.IsPattern
    · obtain ⟨field, op, operand⟩ := k
      obtain ⟨rfl, v, rfl⟩ := hpattern
      exact tells_test hq hclause hcol ht
    · show t.Tells _ (ClauseReader.IsFactor _ fun holds => holds k.tested)
      rw [Comparison.tested_of_not_isPattern hpattern]
      by_cases hlist : k.IsList
      · obtain ⟨field, op, operand⟩ := k
        obtain ⟨rfl, v, rfl⟩ := hlist
        obtain ⟨items, hitems, ht⟩ := ok_of_bind ht
        cases ht
        rw [(Value.ok_of_requireItems hitems).1, List.append_assoc]
        exact tells_items " IN (" "IN (" ")" hq hclause hcol items ⟨rfl, rfl⟩
          (fun _ => rfl) ⟨rfl, by decide, rfl, by decide⟩ rfl
      · have hspecial := hasRulesFor_itemExpression fun h => h.elim hlist hpattern
        exact tells_comparison hq hclause hsigns hcol hspecial (fun h => absurd h hlist) ht

theorem legible_searchIndex : searchIndex.LegibleBy (Dialect.clause .searchIndex) where
  quiet := Dialect.quiet_refers .searchIndex
  junction := rfl
  negation := rfl
  comparison {k t} hfield ht := by
    have hq := Dialect.quiet_refers .searchIndex
    -- A colon is a sigil elsewhere, but the references here begin with an at sign.
    have hcolon : Silent (Dialect.marking .searchIndex).refers ":" := by
      intro c hc
      rw [List.mem_singleton.1 hc]
      rfl
    have hprefix := And.intro (hfield.silent hq) hcolon
    obtain ⟨field, op, operand⟩ := k
    cases operand with
    | range lo hi =>
      cases op with
      | between =>
        cases ht
        have htext : field ++ ":[" = field ++ ":" ++ "[" := by
          rw [String.append_assoc]
          rfl
        rw [htext]
        exact tells_sought hfield rfl hprefix (hq.silent rfl)
          ⟨Template.opens_text rfl rfl _, hq.silent rfl, Template.opens_text rfl rfl _,
            hq.silent rfl, trivial⟩
          [.mark '[', .value lo, .word "TO", .value hi, .mark ']'] rfl fun rest => rfl
      | _ => cases ht
    | value v =>
      cases op with
      | between => cases ht
      | equal =>
        cases ht
        exact tells_sought hfield rfl hprefix (hq.silent rfl)
          ⟨trivial, hq.silent rfl, trivial⟩ [.value v] rfl fun rest => rfl
      | greaterThan =>
        cases ht
        exact tells_sought hfield rfl hprefix (hq.silent rfl)
          ⟨Template.opens_text rfl rfl _, hq.silent rfl, trivial⟩
          [.mark '\x7b', .value v, .word "TO", .word "*", .mark '\x7d'] rfl fun rest => rfl
      | greaterEqual =>
        cases ht
        exact tells_sought hfield rfl hprefix (hq.silent rfl)
          ⟨Template.opens_text rfl rfl _, hq.silent rfl, trivial⟩
          [.mark '[', .value v, .word "TO", .word "*", .mark ']'] rfl fun rest => rfl
      | lessThan =>
        cases ht
        exact tells_sought hfield rfl hprefix (hq.silent rfl)
          ⟨Template.opens_text rfl rfl _, hq.silent rfl, trivial⟩
          [.mark '\x7b', .word "*", .word "TO", .value v, .mark '\x7d'] rfl fun rest => rfl
      | lessEqual =>
        cases ht
        exact tells_sought hfield rfl hprefix (hq.silent rfl)
          ⟨Template.opens_text rfl rfl _, hq.silent rfl, trivial⟩
          [.mark '[', .word "*", .word "TO", .value v, .mark ']'] rfl fun rest => rfl
      | oneOf =>
        obtain ⟨items, hitems, ht⟩ := ok_of_bind ht
        cases ht
        obtain ⟨rfl, hne⟩ := Value.ok_of_requireItems hitems
        have htext : field ++ ":(" = field ++ ":" ++ "(" := by
          rw [String.append_assoc]
          rfl
        rw [htext]
        exact tells_alternatives hq hfield rfl hprefix items hne
      | like =>
        obtain ⟨pattern, hpattern, ht⟩ := ok_of_bind ht
        cases ht
        have hsaid : searchIndex.dialect.said ⟨field, .like, .value v⟩ =
            .atom ⟨field, .like, .value (.str pattern)⟩ :=
          congrArg Formula.atom (Comparison.written_of_pattern hpattern)
        rw [hsaid]
        exact tells_sought hfield rfl hprefix (hq.silent rfl)
          ⟨Template.opens_text rfl rfl _, hq.silent rfl, trivial⟩
          [.mark '/', .value (.str pattern), .mark '/'] rfl fun rest => rfl

/-! ## Filters -/

/-- The filter of a condition by a legible grammar is read as a formula that is true when the
condition is, where every comparison says what its dialect makes of it. -/
theorem LegibleBy.meaning_filterOf {g : Grammar} {clause : ClauseReader} (hg : g.LegibleBy clause)
    (hsigil : ∀ sigil, g.dialect.marking = .named sigil → ∃ c, sigil.toList = [c] ∧ c ≠ '#')
    {c : Condition} (hfull : c.Full) (hfields : ∀ k ∈ c.comparisons, g.dialect.IsField k.field)
    {projection : List String} {f : Filter} (hf : g.filterOf c projection = .ok f) :
    ∃ F, g.dialect.marking.read clause f = some F ∧
      ∀ holds, F.eval holds = c.eval fun k => (g.dialect.said k).eval holds := by
  obtain ⟨t, ht, rfl⟩ := ok_of_map hf
  have htells := (tells_template hg c hfull hfields).1 t ht
  obtain ⟨F, hread, heval⟩ := htells.tokens.read
  refine ⟨F, ?_, heval⟩
  rw [Marking.read, Marking.symbols?_fill _ htells.clean hsigil]
  exact hread

end Grammar

theorem Dialect.legible {d : Dialect} (hd : d ≠ .gremlinScript) : d.grammar.LegibleBy d.clause := by
  cases d with
  | gremlinScript => exact absurd rfl hd
  | atNamed => exact Grammar.legible_atNamed (List.all_eq_true.1 rfl)
  | dollarNamed => exact Grammar.legible_dollarNamed (List.all_eq_true.1 rfl)
  | driverPositional => exact Grammar.legible_driverPositional
  | expressionPositional => exact Grammar.legible_expressionPositional
  | itemExpression => exact Grammar.legible_itemExpression
  | relationalNamed => exact Grammar.legible_relationalNamed
  | relationalPositional => exact Grammar.legible_relationalPositional
  | searchIndex => exact Grammar.legible_searchIndex

/-- A filter in a dialect in infix form is read back as a formula over comparisons that is true when
its condition is, however the comparisons turn out. A junction without children has no text, so
there must be none. -/
theorem Condition.meaning_toFilter {d : Dialect} (hd : d ≠ .gremlinScript) {c : Condition}
    (hfull : c.Full) (hfields : ∀ k ∈ c.comparisons, d.IsField k.field) {projection : List String}
    {f : Filter} (hf : c.toFilter d projection = .ok f) :
    ∃ F, d.marking.read d.clause f = some F ∧
      ∀ holds, F.eval holds = c.eval fun k => (d.said k).eval holds := by
  have hdialect : d.grammar.dialect = d := by cases d <;> rfl
  have hsigil : ∀ sigil, d.marking = .named sigil → ∃ c, sigil.toList = [c] ∧ c ≠ '#' := by
    intro sigil hm
    cases d with
    | gremlinScript => exact absurd rfl hd
    | atNamed | searchIndex => cases hm; exact ⟨'@', rfl, by decide⟩
    | dollarNamed => cases hm; exact ⟨'$', rfl, by decide⟩
    | relationalNamed => cases hm; exact ⟨':', rfl, by decide⟩
    | _ => cases hm
  have hmeaning := (Dialect.legible hd).meaning_filterOf
  rw [hdialect] at hmeaning
  exact hmeaning hsigil hfull hfields hf

/-- An alternative of a text and a conjunction with a range, a negated alternative and a list. -/
def Condition.alternatives : Condition :=
  .junction .or [.compare "name" .like (.str "Ada%"),
    .junction .and [.between "address.zip" (.int 1) (.int 9),
      .not (.junction .or [.compare "age" .lessThan (.int 18), .compare "age" .equal .null]),
      .compare "tags" .oneOf (.list [.int 1, .int 2])]]

theorem Condition.meaning_alternatives :
    ∃ f F, alternatives.toFilter .atNamed [] = .ok f ∧
      (Dialect.marking .atNamed).read (Dialect.clause .atNamed) f = some F ∧
      ∀ holds, F.eval holds = (holds ⟨"name", .like, .value (.str "Ada%")⟩ ||
        (holds ⟨"address.zip", .greaterEqual, .value (.int 1)⟩ &&
          holds ⟨"address.zip", .lessEqual, .value (.int 9)⟩) &&
        !(holds ⟨"age", .lessThan, .value (.int 18)⟩ || holds ⟨"age", .equal, .value .null⟩) &&
        holds ⟨"tags", .oneOf, .value (.list [.int 1, .int 2])⟩) := by
  have hfull : alternatives.Full :=
    ⟨nofun, trivial, ⟨nofun, trivial, ⟨nofun, trivial, trivial, trivial⟩, trivial, trivial⟩, trivial⟩
  have hfields : ∀ k ∈ alternatives.comparisons, Dialect.IsField .atNamed k.field := by
    intro k hk
    simp only [alternatives, Condition.compare, Condition.between, comparisons, comparisonsAll,
      List.cons_append, List.nil_append, List.append_nil, List.mem_cons, List.not_mem_nil, or_false] at hk
    rcases hk with rfl | rfl | rfl | rfl | rfl <;> exact ⟨by decide, List.all_eq_true.1 rfl, List.not_mem_nil⟩
  obtain ⟨f, hf⟩ : ∃ f, alternatives.toFilter .atNamed [] = .ok f := ⟨_, rfl⟩
  obtain ⟨F, hread, heval⟩ := meaning_toFilter (d := .atNamed) (by decide) hfull hfields hf
  refine ⟨f, F, hf, hread, fun holds => ?_⟩
  rw [heval]
  simp [alternatives, eval, evals, Junction.combine, Dialect.said, Comparison.bounded,
    Comparison.written, Formula.eval, Condition.compare, Condition.between, Bool.and_assoc]

end QueryMethods
