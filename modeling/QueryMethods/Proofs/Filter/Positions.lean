/-
Values by position. In the dialects with question marks the text of a filter is the condition written
out with a mark in the place of each operand, and the positional values are these operands from left
to right; so putting the values in the places of the marks gives the condition with its operands.
-/
import QueryMethods.Proofs.Filter.Operands
import QueryMethods.Proofs.Reading.Fields
import QueryMethods.Proofs.Reading.Marks
import QueryMethods.Proofs.Separators

namespace QueryMethods

open QueryMethods.Symbol (ofText)

/-! ## Conditions with their operands -/

namespace Dialect

/-- The symbols of a text with marks. Quoted attributes are read as columns. -/
def lexed (d : Dialect) (text : List Char) : Option (List Symbol) :=
  if d = .expressionPositional then Symbol.quoted none text else some (text.map .char)

/-- What is read for a column. -/
def columnSymbols (d : Dialect) (field : String) : List Symbol :=
  if d = .expressionPositional then [.column field] else ofText field

/-- The texts before and after the items of a list. -/
def brackets (d : Dialect) : String × String :=
  if d = .expressionPositional then (" IN [", "]") else (" IN (", ")")

end Dialect

/-- The symbols of a comparison with its operands in their places. -/
def Comparison.shown (d : Dialect) (k : Comparison) : List Symbol :=
  let column := d.columnSymbols k.field
  match k.op, k.operand with
  | _, .range lo hi =>
    if d = .driverPositional then
      column ++ ofText " >= " ++ .value lo :: (ofText " AND " ++ column ++ ofText " <= " ++ [.value hi])
    else column ++ ofText " BETWEEN " ++ .value lo :: (ofText " AND " ++ [.value hi])
  | .like, .value v => column ++ ofText " LIKE " ++ [.value (.str (d.patternText v.text?))]
  | .oneOf, .value v =>
    if d.spreadsLists then
      column ++ ofText d.brackets.1
        ++ (ofText ", ").intercalate ((v.items?.getD []).map fun item => [.value item])
        ++ ofText d.brackets.2
    else column ++ ofText " IN " ++ [.value v]
  | op, .value v => column ++ ofText (" " ++ op.symbol ++ " ") ++ [.value v]

namespace Condition

/-- Symbols between parentheses, or the symbols alone. -/
def enclosed (parentheses : Bool) (ss : List Symbol) : List Symbol :=
  if parentheses then ofText "(" ++ ss ++ ofText ")" else ss

mutual

/-- The symbols of a condition with its operands in their places; a junction in a junction stands in
parentheses. -/
def shown (d : Dialect) (nested : Bool) : Condition → List Symbol
  | .comparison k => k.shown d
  | .junction j cs => enclosed nested ((ofText (" " ++ j.name ++ " ")).intercalate (showns d cs))
  | .not c => ofText "NOT (" ++ shown d false c ++ ofText ")"

/-- The symbols of each of a junction's children. -/
def showns (d : Dialect) : List Condition → List (List Symbol)
  | [] => []
  | c :: cs => shown d true c :: showns d cs

end

end Condition

/-! ## What is shown -/

section Shown

variable {α : Type} {p : Symbol → Option α}

theorem filterMap_ofText {s : String} (h : ∀ c ∈ s.toList, p (.char c) = none) :
    (ofText s).filterMap p = [] := by
  rw [ofText, List.filterMap_map]
  exact List.filterMap_eq_nil_iff.2 h

/-- What is picked from the symbols of columns and values, but from no character of the signs. -/
def PicksNoSign (p : Symbol → Option α) : Prop :=
  ∀ c, c ∉ sigils → p (.char c) = none

theorem PicksNoSign.filterMap_ofText (hp : PicksNoSign p) {s : String} (h : isPlainText s) :
    (ofText s).filterMap p = [] := by
  refine QueryMethods.filterMap_ofText fun c hc => hp c ?_
  simpa using List.all_eq_true.1 h c hc

mutual

/-- What is picked from a condition is what is picked from its comparisons. -/
theorem filterMap_shown (hp : PicksNoSign p) (d : Dialect) : ∀ (nested : Bool) (c : Condition),
    (c.shown d nested).filterMap p = c.comparisons.flatMap fun k => (k.shown d).filterMap p
  | nested, .comparison k => by simp [Condition.shown, Condition.comparisons]
  | nested, .junction j cs => by
    have hname : (ofText (" " ++ j.name ++ " ")).filterMap p = [] := by
      cases j <;> exact hp.filterMap_ofText rfl
    have hinner := filterMap_intercalate hname (Condition.showns d cs)
    rw [filterMap_showns hp d cs] at hinner
    cases nested with
    | false => exact hinner
    | true =>
      rw [Condition.shown, Condition.enclosed, if_pos rfl, List.filterMap_append,
        List.filterMap_append, hp.filterMap_ofText rfl, hp.filterMap_ofText rfl, hinner,
        List.append_nil]
      rfl
  | nested, .not c => by
    rw [Condition.shown, List.filterMap_append, List.filterMap_append, hp.filterMap_ofText rfl,
      hp.filterMap_ofText rfl, filterMap_shown hp d false c, List.append_nil]
    rfl

theorem filterMap_showns (hp : PicksNoSign p) (d : Dialect) : ∀ cs : List Condition,
    (Condition.showns d cs).flatMap (List.filterMap p) =
      (Condition.comparisonsAll cs).flatMap fun k => (k.shown d).filterMap p
  | [] => rfl
  | c :: cs => by
    rw [Condition.showns, List.flatMap_cons, filterMap_shown hp d true c, filterMap_showns hp d cs,
      Condition.comparisonsAll, List.flatMap_append]

end

variable {d : Dialect} {k : Comparison}

theorem filterMap_items (hp : PicksNoSign p) (vs : List Value) :
    ((ofText ", ").intercalate (vs.map fun v => [.value v])).filterMap p =
      vs.filterMap fun v => p (.value v) := by
  rw [filterMap_intercalate (hp.filterMap_ofText rfl), List.flatMap_map,
    List.filterMap_eq_flatMap_toList]
  rfl

theorem isPlainText_brackets (d : Dialect) : isPlainText d.brackets.1 ∧ isPlainText d.brackets.2 := by
  cases d <;> exact ⟨rfl, rfl⟩

theorem isPlainText_sign (op : Operator) : isPlainText (" " ++ op.symbol ++ " ") := by
  cases op <;> rfl

/-- What is picked from a comparison but not from its column is picked from its operands. -/
theorem filterMap_operands (hp : PicksNoSign p)
    (hcolumn : (d.columnSymbols k.field).filterMap p = []) :
    (k.shown d).filterMap p = (k.values d).filterMap fun v => p (.value v) := by
  have hsign {s : String} (h : isPlainText s) : (ofText s).filterMap p = [] := hp.filterMap_ofText h
  have hvalue (v : Value) : [Symbol.value v].filterMap p = [v].filterMap fun v => p (.value v) := rfl
  obtain ⟨field, op, operand⟩ := k
  cases operand with
  | range lo hi =>
    simp only [Comparison.shown, Comparison.values]
    split <;> simp (disch := decide) [List.filterMap_cons, hcolumn, hsign]
  | value v =>
    cases op with
    | oneOf =>
      have hopening := hsign (isPlainText_brackets d).1
      have hclosing := hsign (isPlainText_brackets d).2
      simp only [Comparison.shown, Comparison.values]
      split <;> simp (disch := decide) [hcolumn, hsign, hopening, hclosing, filterMap_items hp, hvalue]
    | like => simp (disch := decide) [Comparison.shown, Comparison.values, hcolumn, hsign, hvalue]
    | _ =>
      simp [Comparison.shown, Comparison.values, hcolumn, hsign (isPlainText_sign _), hvalue]

/-- What is picked from a comparison but not from its operands is picked from its column. -/
theorem filterMap_column (hp : PicksNoSign p) (hvalue : ∀ v, p (.value v) = none)
    (hd : d ≠ .driverPositional) :
    (k.shown d).filterMap p = (d.columnSymbols k.field).filterMap p := by
  have hsign {s : String} (h : isPlainText s) : (ofText s).filterMap p = [] := hp.filterMap_ofText h
  obtain ⟨field, op, operand⟩ := k
  cases operand with
  | range lo hi =>
    simp (disch := decide) [Comparison.shown, hd, hsign, hvalue, List.filterMap_cons,
      -List.filterMap_eq_nil_iff]
  | value v =>
    cases op with
    | oneOf =>
      have hopening := hsign (isPlainText_brackets d).1
      have hclosing := hsign (isPlainText_brackets d).2
      simp only [Comparison.shown]
      split <;> simp (disch := decide) [hsign, hopening, hclosing, filterMap_items hp, hvalue]
    | like => simp (disch := decide) [Comparison.shown, hsign, hvalue]
    | _ => simp [Comparison.shown, hsign (isPlainText_sign _), hvalue]

/-- The values in what is shown are those that the condition hands over. -/
theorem values_shown (d : Dialect) (nested : Bool) (c : Condition) :
    (c.shown d nested).filterMap Symbol.value? = c.values d := by
  have hsigns : PicksNoSign Symbol.value? := fun _ _ => rfl
  have hcolumn (field : String) : (d.columnSymbols field).filterMap Symbol.value? = [] := by
    rw [Dialect.columnSymbols]
    split
    · rfl
    · exact filterMap_ofText fun _ _ => rfl
  rw [filterMap_shown hsigns, Condition.values]
  congr 1
  funext k
  rw [filterMap_operands hsigns (hcolumn k.field)]
  exact List.filterMap_some

/-- The quoted attributes in what is shown are the fields of the comparisons. -/
theorem columns_shown (nested : Bool) (c : Condition) :
    (c.shown .expressionPositional nested).filterMap Symbol.column? =
      c.comparisons.map Comparison.field := by
  have hsigns : PicksNoSign Symbol.column? := fun _ _ => rfl
  rw [filterMap_shown hsigns, ← List.flatMap_singleton' (c.comparisons.map _), List.flatMap_map]
  congr 1
  funext k
  exact filterMap_column hsigns (fun _ => rfl) nofun

/-- There is no mark in what is shown, if there is none in a field that is not quoted. -/
theorem not_isMark_shown {nested : Bool} {c : Condition}
    (hfields : d ≠ .expressionPositional → ∀ k ∈ c.comparisons, '?' ∉ k.field.toList) :
    ∀ s ∈ c.shown d nested, s.isMark = false := by
  have hsigns : PicksNoSign fun s => if s.isMark then some () else none := by
    intro x hx
    have hne : x ≠ '?' := by
      rintro rfl
      exact hx (by decide)
    simp [Symbol.isMark, hne]
  have hcolumn : ∀ k ∈ c.comparisons,
      (d.columnSymbols k.field).filterMap (fun s => if s.isMark then some () else none) = [] := by
    intro k hk
    rw [Dialect.columnSymbols]
    split
    · rfl
    · rename_i hd
      refine filterMap_ofText fun x hx => ?_
      have hne : x ≠ '?' := by
        rintro rfl
        exact hfields hd k hk hx
      simp [Symbol.isMark, hne]
  have hnone := filterMap_shown hsigns d nested c
  rw [List.flatMap_eq_nil_iff.2 fun k hk => ?_] at hnone
  · intro s hs
    have := List.filterMap_eq_nil_iff.1 hnone s hs
    simpa using this
  · rw [filterMap_operands hsigns (hcolumn k hk)]
    exact List.filterMap_eq_nil_iff.2 fun v _ => rfl

end Shown

/-! ## Templates -/

namespace Template

variable {d : Dialect} {t u : Template} {ss ss' : List Symbol}

/-- The text of the template with marks reads as these symbols do with marks in the places of values,
whatever comes after it. -/
def Shows (d : Dialect) (t : Template) (ss : List Symbol) : Prop :=
  ∀ r, d.lexed ((t.render (fun _ => "?") id).toList ++ r) = (ss.map Symbol.marked ++ ·) <$> d.lexed r

theorem shows_nil : Shows d [] [] := by
  intro r
  show d.lexed r = _
  cases d.lexed r <;> rfl

theorem Shows.append (h : Shows d t ss) (hu : Shows d u ss') : Shows d (t ++ u) (ss ++ ss') := by
  intro r
  rw [render_append, String.toList_append, List.append_assoc, h, hu, List.map_append]
  cases d.lexed r <;> simp

theorem Shows.cons {p : Piece} (h : Shows d [p] ss) (hu : Shows d u ss') :
    Shows d (p :: u) (ss ++ ss') :=
  h.append hu

/-- A text is read as its characters, if it has no quotes or these mean nothing. -/
theorem shows_text {s : String} (h : d = .expressionPositional → '"' ∉ s.toList) :
    Shows d [.text s] (ofText s) := by
  intro r
  have htext : (render (fun _ => "?") id [.text s]).toList = s.toList := by simp [render]
  have hmarked : (ofText s).map Symbol.marked = s.toList.map .char := by
    rw [ofText, List.map_map]
    rfl
  rw [htext, hmarked, Dialect.lexed, Dialect.lexed]
  split
  · rename_i hd
    exact Symbol.quoted_text (h hd) r
  · rw [List.map_append]
    rfl

theorem shows_slot (hint : String) (v : Value) : Shows d [.slot hint v] [.value v] := by
  have hmark : Shows d [.text "?"] (ofText "?") := shows_text fun _ => by decide
  exact hmark

/-- The separator is read alike between all parts. -/
theorem shows_separated {separator : String} (h : Shows d [.text separator] (ofText separator))
    {parts : List Template} {shown : List (List Symbol)} (hparts : List.Forall₂ (Shows d) parts shown) :
    Shows d (separated separator parts) ((ofText separator).intercalate shown) := by
  induction hparts with
  | nil => exact shows_nil
  | cons hfirst hothers ih =>
    cases hothers with
    | nil =>
      rw [separated_singleton, List.intercalate_singleton]
      exact hfirst
    | cons hsecond hothers =>
      rw [separated_cons_cons, List.intercalate_cons_cons, List.append_assoc]
      exact hfirst.append (h.cons ih)

theorem shows_items (hint : String) (items : List Value) :
    Shows d (Grammar.itemSlots hint items)
      ((ofText ", ").intercalate (items.map fun v => [.value v])) := by
  refine shows_separated (shows_text fun _ => by decide) ?_
  induction items with
  | nil => exact .nil
  | cons v items ih => exact .cons (shows_slot hint v) ih

theorem Shows.grouped (h : Shows d t ss) (parentheses : Bool) :
    Shows d (grouped parentheses t) (Condition.enclosed parentheses ss) := by
  cases parentheses with
  | false => exact h
  | true =>
    have hopening : Shows d [.text "("] (ofText "(") := shows_text fun _ => by decide
    have hclosing : Shows d [.text ")"] (ofText ")") := shows_text fun _ => by decide
    rw [Condition.enclosed, if_pos rfl, List.append_assoc]
    exact hopening.cons (h.append hclosing)

/-- Two texts may be put together. -/
theorem Shows.joined {s s' : String} (h : Shows d (.text s :: .text s' :: t) ss) :
    Shows d (.text (s ++ s') :: t) ss := by
  intro r
  rw [render_text, String.append_assoc, ← render_text _ _ s', ← render_text]
  exact h r

/-- A quoted column is read up to the text after it, which begins with a space. -/
theorem shows_quoted (field : String) {s : String} (hs : s.toList.head? = some ' ')
    (h : '"' ∉ s.toList) :
    Shows .expressionPositional [.text (Text.doubledQuoted field), .text s]
      (.column field :: ofText s) := by
  intro r
  have htext : (render (fun _ => "?") id [.text (Text.doubledQuoted field), .text s]).toList =
      '"' :: ((field.toList.flatMap fun c => if c = '"' then [c, c] else [c]) ++ '"' :: s.toList) := by
    simp [render, Text.doubledQuoted]
  have hend : (s.toList ++ r).head? ≠ some '"' := by
    rw [List.head?_append, hs, Option.some_or]
    decide
  have hmarked : (ofText s).map Symbol.marked = s.toList.map .char := by
    rw [ofText, List.map_map]
    rfl
  rw [htext, Dialect.lexed, if_pos rfl, List.cons_append, Symbol.quoted, if_pos rfl,
    List.append_assoc, List.cons_append, Symbol.quoted_doubled [] field.toList hend,
    Symbol.quoted_text h, List.nil_append, String.ofList_toList, List.map_cons, hmarked]
  show _ = (Symbol.column field :: _ ++ ·) <$> Symbol.quoted none r
  cases Symbol.quoted none r <;> rfl

end Template

namespace Grammar

open Template

variable {d : Dialect} {k : Comparison} {t : Template}

/-- A column and a text that begins with a space. -/
theorem shows_column (hd : d.isPositional) (field : String) {s : String}
    (hs : s.toList.head? = some ' ') (h : '"' ∉ s.toList) :
    Shows d (d.grammar.column field ++ [.text s]) (d.columnSymbols field ++ ofText s) := by
  have hbare (hd : d ≠ .expressionPositional) :
      Shows d ([.text field] ++ [.text s]) (d.columnSymbols field ++ ofText s) := by
    rw [Dialect.columnSymbols, if_neg hd]
    exact (shows_text fun h => absurd h hd).append (shows_text fun _ => h)
  cases d with
  | driverPositional => exact hbare nofun
  | relationalPositional => exact hbare nofun
  | expressionPositional => exact shows_quoted field hs h
  | _ => cases hd

/-- A column, a sign and a value. -/
theorem shows_signed (hd : d.isPositional) (field hint : String) (op : Operator) (v : Value) :
    Shows d (d.grammar.column field ++ [.text (" " ++ op.symbol ++ " "), .slot hint v])
      (d.columnSymbols field ++ ofText (" " ++ op.symbol ++ " ") ++ [.value v]) := by
  have hcolumn : Shows d (d.grammar.column field ++ [.text (" " ++ op.symbol ++ " ")])
      (d.columnSymbols field ++ ofText (" " ++ op.symbol ++ " ")) := by
    apply shows_column hd field <;> cases op <;> decide
  rw [List.append_cons]
  exact hcolumn.append (shows_slot hint v)

theorem shows_of_plainForm (hd : d.isPositional) (h : d.grammar.PlainForm k t)
    (hrange : k.IsRange → d ≠ .driverPositional) (hlist : k.IsList → d.spreadsLists = false) :
    Shows d t (k.shown d) := by
  have hsymbol : d.grammar.symbol = Operator.symbol := by
    cases d <;> first | rfl | cases hd
  have hitem : d ≠ .itemExpression := by
    rintro rfl
    cases hd
  cases h with
  | @signed field op v hbetween hlist' =>
    rw [hsymbol]
    cases op with
    | between => exact absurd rfl hbetween
    | oneOf => exact absurd rfl hlist'
    | like =>
      have hsign : ofText (" " ++ Operator.like.symbol ++ " ") = ofText " LIKE " := rfl
      have hsigned := shows_signed hd field field .like (.str (d.grammar.patterns.write v.text?))
      rw [hsign] at hsigned
      simpa [Comparison.shown, slotValue, Dialect.patternText_eq hitem] using hsigned
    | _ => exact shows_signed hd field field _ v
  | between field lo hi =>
    have hcolumn : Shows d (d.grammar.column field ++ [.text " BETWEEN "])
        (d.columnSymbols field ++ ofText " BETWEEN ") := shows_column hd field rfl (by decide)
    have hand : Shows d [.text " AND "] (ofText " AND ") := shows_text fun _ => by decide
    have hbounds := (shows_slot (field ++ "_lo") lo).append (hand.append (shows_slot (field ++ "_hi") hi))
    have hshown := hcolumn.append hbounds
    have hd := hrange ⟨rfl, lo, hi, rfl⟩
    simpa [Comparison.shown, hd, low, high] using hshown
  | whole field items =>
    have hcolumn : Shows d (d.grammar.column field ++ [.text " IN "])
        (d.columnSymbols field ++ ofText " IN ") := shows_column hd field rfl (by decide)
    have hshown := hcolumn.append (shows_slot field (.list items))
    have hd := hlist ⟨rfl, _, rfl⟩
    simpa [Comparison.shown, hd] using hshown

/-- A list that is written out. -/
theorem shows_list (hd : d.isPositional) (hspreads : d.spreadsLists) {column field : String}
    (hcolumn : d.grammar.column field = [.text column]) (items : List Value) :
    Shows d (.text (column ++ d.brackets.1) :: itemSlots field items ++ [.text d.brackets.2])
      ((Comparison.mk field .oneOf (.value (.list items))).shown d) := by
  have hopening : Shows d (d.grammar.column field ++ [.text d.brackets.1])
      (d.columnSymbols field ++ ofText d.brackets.1) := by
    apply shows_column hd field <;> cases d <;> decide
  have hclosing : Shows d [.text d.brackets.2] (ofText d.brackets.2) := by
    refine shows_text fun _ => ?_
    cases d <;> decide
  rw [hcolumn] at hopening
  have hshown := hopening.append ((shows_items field items).append hclosing)
  have hitems : (Value.list items).items?.getD [] = items := rfl
  rw [Comparison.shown]
  simp only [hspreads, if_true, hitems, List.append_assoc]
  simp only [List.append_assoc] at hshown
  exact hshown.joined

theorem shows_driverPositional (h : driverPositional.comparison k = .ok t) :
    Shows .driverPositional t (k.shown .driverPositional) := by
  cases rangeForms_driverPositional h with
  | plain hk h =>
    exact shows_of_plainForm (d := .driverPositional) rfl h (fun h => absurd h hk) fun _ => rfl
  | range field lo hi =>
    have htext (s : String) : Shows .driverPositional [.text s] (ofText s) := shows_text nofun
    have hlow := (htext (field ++ " >= ")).append (shows_slot (field ++ "_lo") lo)
    have hhigh := (htext (" AND " ++ field ++ " <= ")).append (shows_slot (field ++ "_hi") hi)
    simpa [Comparison.shown, Dialect.columnSymbols, Symbol.ofText_append, low, high] using
      hlow.append hhigh

theorem shows_expressionPositional (h : expressionPositional.comparison k = .ok t) :
    Shows .expressionPositional t (k.shown .expressionPositional) := by
  cases listForms_expressionPositional h with
  | plain hk h =>
    exact shows_of_plainForm (d := .expressionPositional) rfl h nofun fun h => absurd h hk
  | list field items => exact shows_list (d := .expressionPositional) rfl rfl rfl items

theorem shows_relationalPositional (h : relationalPositional.comparison k = .ok t) :
    Shows .relationalPositional t (k.shown .relationalPositional) := by
  cases listForms_relationalPositional h with
  | plain hk h =>
    exact shows_of_plainForm (d := .relationalPositional) rfl h nofun fun h => absurd h hk
  | list field items => exact shows_list (d := .relationalPositional) rfl rfl rfl items

theorem showns_eq_map (d : Dialect) (cs : List Condition) :
    Condition.showns d cs = cs.map (Condition.shown d true) := by
  induction cs with
  | nil => rfl
  | cons c cs ih => rw [Condition.showns, ih, List.map_cons]

/-- The template of a condition shows the condition with its operands in their places. -/
theorem shows_template (hd : d.isPositional) {nested : Bool} {c : Condition}
    (h : d.grammar.template nested c = .ok t) : Shows d t (c.shown d nested) := by
  have hcomparison {k : Comparison} {t : Template} (h : d.grammar.comparison k = .ok t) :
      Shows d t (k.shown d) := by
    cases d with
    | driverPositional => exact shows_driverPositional h
    | expressionPositional => exact shows_expressionPositional h
    | relationalPositional => exact shows_relationalPositional h
    | _ => cases hd
  have hjunction : d.grammar.junction = infixJunction := by
    cases d <;> first | rfl | cases hd
  have hnegation : d.grammar.negation = negationBefore := by
    cases d <;> first | rfl | cases hd
  have hkeeps : d.grammar.Keeps (fun _ => True) fun nested c t => Shows d t (c.shown d nested) := by
    refine ⟨fun _ h => ?_, fun {nested j cs ts} h => ?_, fun {nested c t} h => ?_⟩
    · rw [Condition.shown]
      exact hcomparison h
    · have hname : Shows d [.text (" " ++ j.name ++ " ")] (ofText (" " ++ j.name ++ " ")) := by
        refine shows_text fun _ => ?_
        cases j <;> decide
      have hparts : List.Forall₂ (Shows d) ts (Condition.showns d cs) := by
        rw [showns_eq_map]
        exact List.forall₂_map_right_iff.2 h.flip
      rw [hjunction, Condition.shown]
      exact (shows_separated hname hparts).grouped nested
    · have hopening : Shows d [.text "NOT ("] (ofText "NOT (") := shows_text fun _ => by decide
      have hclosing : Shows d [.text ")"] (ofText ")") := shows_text fun _ => by decide
      rw [hnegation, Condition.shown, List.append_assoc]
      exact hopening.cons (h.append hclosing)
  exact hkeeps.template nested c t (fun _ _ => trivial) h

end Grammar

/-! ## Filters -/

/-- Values that stand for the marks of a query text by position, given the symbols that the text is
read as. -/
structure Params.BoundByPosition (d : Dialect) (query : String) (ss : List Symbol)
    (values : List Value) (c : Condition) : Prop where
  lexed : d.lexed query.toList = some ss
  /-- There are as many marks, outside of quoted names, as values. -/
  marks : ss.countP Symbol.isMark = values.length
  /-- Each value stands where the condition has its operand. -/
  fill : Symbol.fill values ss = some (c.shown d false)
  /-- Quoted names are the fields of the comparisons. -/
  columns : d = .expressionPositional →
    ss.filterMap Symbol.column? = c.comparisons.map Comparison.field

namespace Condition

/-- A dialect with question marks puts each operand of a condition in the place of its mark, if no
question mark is in a field, or if fields are quoted. -/
theorem placed_toFilter {d : Dialect} (hd : d.isPositional) {c : Condition}
    (hfields : d ≠ .expressionPositional → ∀ k ∈ c.comparisons, '?' ∉ k.field.toList)
    {projection : List String} {f : Filter} (hf : c.toFilter d projection = .ok f) :
    ∃ query ss, f = .text query (.positional (c.values d)) ∧
      Params.BoundByPosition d query ss (c.values d) c := by
  obtain ⟨t, ht, rfl⟩ := ok_of_map hf
  have hfill : d.grammar.dialect.marking.fill t (projection.map d.grammar.column) =
      .text (t.render (fun _ => "?") id) (.positional t.values) := by
    cases d <;> first | rfl | cases hd
  have hlexed : d.lexed (t.render (fun _ => "?") id).toList =
      some ((c.shown d false).map Symbol.marked) := by
    have hshows := Grammar.shows_template hd ht []
    have hnil : d.lexed [] = some [] := by
      rw [Dialect.lexed]
      split <;> rfl
    rw [List.append_nil, hnil] at hshows
    rw [hshows]
    exact congrArg some (List.append_nil _)
  have hmarks : ∀ s ∈ c.shown d false, s.isMark = false := not_isMark_shown hfields
  rw [hfill, Grammar.values_template ht]
  refine ⟨_, _, rfl, hlexed, ?_, ?_, fun hd => ?_⟩
  · rw [Symbol.countP_marked hmarks, values_shown]
  · rw [← values_shown d false]
    exact Symbol.fill_marked hmarks
  · subst hd
    rw [Symbol.columns_marked, columns_shown]

/-- Fields with quotes and a given text in them. -/
def hostile (s : String) : Condition :=
  .junction .or [.between ("a" ++ s ++ "\"") (.int 1) (.int 2),
    .junction .and [.compare "" .oneOf (.list [.str "?", .null]),
      .compare ("\"" ++ s ++ "\"") .equal (.str "\"")],
    .not (.compare ("c = " ++ s) .lessThan (.int 3))]

theorem placed_hostile :
    (∃ f, (hostile "?").toFilter .expressionPositional ["a"] = .ok f ∧
      ∃ query ss, f = .text query (.positional ((hostile "?").values .expressionPositional)) ∧
        Params.BoundByPosition .expressionPositional query ss
          ((hostile "?").values .expressionPositional) (hostile "?")) ∧
    (∀ k ∈ (hostile "!").comparisons, '?' ∉ k.field.toList) ∧
      ∃ f, (hostile "!").toFilter .relationalPositional [] = .ok f ∧
        ∃ query ss, f = .text query (.positional ((hostile "!").values .relationalPositional)) ∧
          Params.BoundByPosition .relationalPositional query ss
            ((hostile "!").values .relationalPositional) (hostile "!") := by
  have hfields : ∀ k ∈ (hostile "!").comparisons, '?' ∉ k.field.toList := by
    simp [hostile, comparisons, comparisonsAll, compare, between]
  refine ⟨⟨_, rfl, ?_⟩, hfields, _, rfl, ?_⟩
  · exact placed_toFilter (d := .expressionPositional) rfl (fun h => absurd rfl h) rfl
  · exact placed_toFilter (d := .relationalPositional) rfl (fun _ => hfields) rfl

end Condition

end QueryMethods
