/-
Clean templates. Where the name of a column has no character that begins a reference, a grammar
writes no such character but in references, and a name never runs on into the text after it; item
stores have only aliases in the place of columns, so there any name will do.
-/
import QueryMethods.Proofs.Grammar.Forms
import QueryMethods.Proofs.Reading.Fields

namespace QueryMethods

variable {refers : Char → Bool}

namespace Template

theorem opens_append_text {s s' : String} {c : Char} {r : List Char} (hs : s.toList = c :: r)
    (hc : Params.isNameChar c = false) (t : Template) : Opens (.text (s ++ s') :: t) := by
  refine opens_text (r := r ++ s'.toList) ?_ hc t
  rw [String.toList_append, hs, List.cons_append]

theorem clean_separated {separator : String} (hsilent : Silent refers separator)
    (hopens : ∀ t, Opens (.text separator :: t)) {parts : List Template}
    (h : ∀ t ∈ parts, t.Clean refers) : (separated separator parts).Clean refers := by
  induction parts with
  | nil => trivial
  | cons t parts ih =>
    obtain ⟨ht, hparts⟩ := List.forall_mem_cons.1 h
    cases parts with
    | nil =>
      rw [separated_singleton]
      exact ht
    | cons u parts =>
      rw [separated_cons_cons]
      exact clean_append ht ⟨hsilent, ih hparts⟩ (hopens _)

theorem clean_grouped (hq : Quiet refers) (parentheses : Bool) {t : Template}
    (h : t.Clean refers) : (grouped parentheses t).Clean refers := by
  cases parentheses with
  | false => exact h
  | true =>
    exact ⟨hq.silent rfl, clean_append h ⟨hq.silent rfl, trivial⟩ (opens_text rfl rfl _)⟩

/-- Slots of one hint with a text between them. -/
theorem clean_slots {separator : String} (hsilent : Silent refers separator)
    (hopens : ∀ t, Opens (.text separator :: t)) (hint : String) (items : List Value) :
    (separated separator (items.map fun v => [.slot hint v])).Clean refers := by
  refine clean_separated hsilent hopens fun t ht => ?_
  obtain ⟨v, -, rfl⟩ := List.mem_map.1 ht
  exact ⟨trivial, trivial⟩

end Template

namespace Grammar

open Template

variable {g : Grammar} {k : Comparison} {t : Template}

theorem clean_of_plainForm (hq : Quiet refers) (hsymbol : ∀ op, isPlainText (g.symbol op))
    (hcolumn : (g.column k.field).Clean refers) (h : g.PlainForm k t) : t.Clean refers := by
  cases h with
  | @signed field op v _ _ =>
    have hspace : Silent refers " " := hq.silent rfl
    have hsign := (hspace.append (hq.silent (hsymbol op))).append hspace
    refine clean_append hcolumn ⟨hsign, trivial, trivial⟩ ?_
    rw [String.append_assoc]
    exact opens_append_text rfl rfl _
  | between field lo hi =>
    refine clean_append hcolumn ?_ (opens_text rfl rfl _)
    exact ⟨hq.silent rfl, opens_text rfl rfl _, hq.silent rfl, trivial, trivial⟩
  | whole field items =>
    exact clean_append hcolumn ⟨hq.silent rfl, trivial, trivial⟩ (opens_text rfl rfl _)

/-- The items of a list between two texts. -/
theorem clean_itemSlots (hq : Quiet refers) (field : String) (items : List Value) {closing : String}
    (hclosing : isPlainText closing) (hopens : Opens [.text closing]) :
    (itemSlots field items ++ [Piece.text closing]).Clean refers := by
  have hslots : (itemSlots field items).Clean refers :=
    clean_slots (hq.silent rfl) (opens_text rfl rfl) field items
  exact clean_append hslots ⟨hq.silent hclosing, trivial⟩ hopens

/-! ## Named parameters -/

theorem isPlainText_symbol (op : Operator) : isPlainText op.symbol := by
  cases op <;> rfl

theorem clean_member {var field : String} (hq : Quiet refers) (hvar : Silent refers var)
    (hfield : Silent refers field) : Silent refers (member var field) :=
  (hvar.append (hq.silent rfl)).append hfield

theorem clean_atNamed {var : String} (hq : Quiet refers) (hvar : Silent refers var)
    (hfield : Silent refers k.field) (h : (atNamed var).comparison k = .ok t) : t.Clean refers := by
  have hmember := clean_member hq hvar hfield
  cases rangeForms_atNamed h with
  | plain _ h =>
    have hsymbol (op : Operator) : isPlainText ((atNamed var).symbol op) := by
      cases op with
      | equal => exact (rfl : isPlainText "==" = true)
      | _ => exact isPlainText_symbol _
    have hcolumn : ((atNamed var).column k.field).Clean refers := ⟨hmember, trivial⟩
    exact clean_of_plainForm hq hsymbol hcolumn h
  | range field lo hi =>
    have hlow := ((hq.silent (s := "(") rfl).append hmember).append (hq.silent (s := " >= ") rfl)
    have hhigh := ((hq.silent (s := " AND ") rfl).append hmember).append (hq.silent (s := " <= ") rfl)
    refine ⟨hlow, ?_, hhigh, opens_text rfl rfl _, hq.silent rfl, trivial⟩
    rw [String.append_assoc]
    exact opens_append_text rfl rfl _

theorem clean_dollarNamed {var : String} (hq : Quiet refers) (hvar : Silent refers var)
    (hfield : Silent refers k.field) (h : (dollarNamed var).comparison k = .ok t) :
    t.Clean refers := by
  have hmember := clean_member hq hvar hfield
  cases rangeForms_dollarNamed h with
  | plain _ h =>
    have hsymbol (op : Operator) : isPlainText ((dollarNamed var).symbol op) := by
      cases op with
      | like => exact (rfl : isPlainText "=~" = true)
      | _ => exact isPlainText_symbol _
    have hcolumn : ((dollarNamed var).column k.field).Clean refers := ⟨hmember, trivial⟩
    exact clean_of_plainForm hq hsymbol hcolumn h
  | range field lo hi =>
    have hbetween := ((hq.silent (s := " <= ") rfl).append hmember).append (hq.silent (s := " <= ") rfl)
    refine ⟨?_, hbetween, trivial, trivial⟩
    rw [String.append_assoc]
    exact opens_append_text rfl rfl _

theorem clean_relationalNamed (hq : Quiet refers) (hfield : Silent refers k.field)
    (h : relationalNamed.comparison k = .ok t) : t.Clean refers := by
  cases listForms_relationalNamed h with
  | plain _ h =>
    have hcolumn : (relationalNamed.column k.field).Clean refers := ⟨hfield, trivial⟩
    exact clean_of_plainForm hq isPlainText_symbol hcolumn h
  | list field items =>
    exact ⟨hfield.append (hq.silent rfl), opens_text rfl rfl _, hq.silent rfl, trivial⟩

/-- A field and a colon with a text after them; the colon is a sign of its own in these texts. -/
theorem clean_searchIndex (hq : Quiet refers) (hcolon : refers ':' = false)
    (hfield : Silent refers k.field) (h : searchIndex.comparison k = .ok t) : t.Clean refers := by
  obtain ⟨field, op, operand⟩ := k
  have hcolon : Silent refers ":" := by
    intro c hc
    rw [List.mem_singleton.1 hc]
    exact hcolon
  have hbefore (s : String) (hs : isPlainText s) : Silent refers (field ++ (":" ++ s)) :=
    hfield.append (hcolon.append (hq.silent hs))
  have hclause (before : String) (v : Value) (after : String) (hs : isPlainText before)
      (hafter : isPlainText after) (hopens : Opens [.text after]) :
      (searchClause field before v after).Clean refers := by
    rw [searchClause, String.append_assoc]
    exact ⟨hbefore before hs, hopens, hq.silent hafter, trivial⟩
  cases operand with
  | range lo hi =>
    cases op with
    | between =>
      cases h
      exact ⟨hbefore "[" rfl, opens_text rfl rfl _, hq.silent rfl, opens_text rfl rfl _,
        hq.silent rfl, trivial⟩
    | _ => cases h
  | value v =>
    cases op with
    | between => cases h
    | equal => cases h; exact hclause "" v "" rfl rfl trivial
    | greaterThan => cases h; exact hclause "\x7b" v " TO *\x7d" rfl rfl (opens_text rfl rfl _)
    | greaterEqual => cases h; exact hclause "[" v " TO *]" rfl rfl (opens_text rfl rfl _)
    | lessThan => cases h; exact hclause "\x7b* TO " v "\x7d" rfl rfl (opens_text rfl rfl _)
    | lessEqual => cases h; exact hclause "[* TO " v "]" rfl rfl (opens_text rfl rfl _)
    | like =>
      obtain ⟨pattern, -, h⟩ := ok_of_bind h
      cases h
      exact hclause "/" (.str pattern) "/" rfl rfl (opens_text rfl rfl _)
    | oneOf =>
      obtain ⟨items, -, h⟩ := ok_of_bind h
      cases h
      have hslots : (separated " OR " (items.map fun v => [.slot field v])).Clean refers :=
        clean_slots (hq.silent rfl) (opens_text rfl rfl) field items
      exact ⟨hbefore "(" rfl,
        clean_append hslots ⟨hq.silent rfl, trivial⟩ (opens_text rfl rfl _)⟩

/-! ## Item stores -/

theorem clean_aliasPath (hdot : refers '.' = false) (halias : refers '#' = true) (field : String) :
    (aliasPath field).Clean refers := by
  have hne : field.toList.splitOn '.' ≠ [] := List.splitOn_ne_nil '.' field.toList
  exact (aliasedSegments_spec hdot halias hne).1

theorem clean_textTest (hq : Quiet refers) (halias : refers '#' = true) (field : String)
    (test : TextTest) : (textTest field test).Clean refers := by
  have hcolumn : (aliasPath field).Clean refers := clean_aliasPath (hq '.' (by decide)) halias field
  have hcall (text : String) :
      (aliasPath field ++ [Piece.text ", ", .slot field (.str text), .text ")"]).Clean refers := by
    refine clean_append hcolumn ?_ (opens_text rfl rfl _)
    exact ⟨hq.silent rfl, opens_text rfl rfl _, hq.silent rfl, trivial⟩
  cases test with
  | equals text =>
    exact clean_append hcolumn ⟨hq.silent rfl, trivial, trivial⟩ (opens_text rfl rfl _)
  | beginsWith text => exact ⟨hq.silent rfl, hcall text⟩
  | contains text => exact ⟨hq.silent rfl, hcall text⟩

theorem clean_itemExpression (hq : Quiet refers) (halias : refers '#' = true)
    (h : itemExpression.comparison k = .ok t) : t.Clean refers := by
  have hcolumn (field : String) : (aliasPath field).Clean refers :=
    clean_aliasPath (hq '.' (by decide)) halias field
  cases itemForms_of_comparison h with
  | plain _ _ h => exact clean_of_plainForm hq isPlainText_symbol (hcolumn k.field) h
  | list field items =>
    have hslots : (itemSlots field items ++ [Piece.text ")"]).Clean refers :=
      clean_itemSlots hq field items rfl (opens_text rfl rfl _)
    rw [List.append_assoc]
    exact clean_append (hcolumn field) ⟨hq.silent rfl, hslots⟩ (opens_text rfl rfl _)
  | pattern field v _ => exact clean_textTest hq halias field _

/-! ## Conditions -/

theorem clean_negationBefore (hq : Quiet refers) (h : t.Clean refers) :
    (negationBefore t).Clean refers :=
  ⟨hq.silent rfl, clean_append h ⟨hq.silent rfl, trivial⟩ (opens_text rfl rfl _)⟩

/-- A condition in infix form is clean if its comparisons are. -/
theorem clean_template (hq : Quiet refers) (hjunction : g.junction = infixJunction)
    (hnegation : g.negation = negationBefore) {P : Comparison → Prop}
    (hcomparison : ∀ {k t}, P k → g.comparison k = .ok t → t.Clean refers) {nested : Bool}
    {c : Condition} (hP : ∀ k ∈ c.comparisons, P k) (h : g.template nested c = .ok t) :
    t.Clean refers := by
  have hkeeps : g.Keeps P fun _ _ t => t.Clean refers := by
    refine ⟨hcomparison, fun {nested j cs ts} h => ?_, fun {nested c t} h => ?_⟩
    · have hparts : ∀ t ∈ ts, t.Clean refers := forall_of_forall₂ h fun _ _ ht => ht
      rw [hjunction]
      refine clean_grouped hq nested (clean_separated ?_ (fun t => ?_) hparts)
      · cases j <;> exact hq.silent rfl
      · cases j <;> exact opens_text rfl rfl t
    · rw [hnegation]
      exact clean_negationBefore hq h
  exact hkeeps.template nested c t hP h

end Grammar

end QueryMethods
