/-
Comparisons in the infix dialects. A template that is a column, a sign and an operand is read back
as the comparison it was made from, with a pattern as the store takes it; so the grammars differ in
their columns, in the form of their lists, and in the few comparisons they write in a way of their
own.
-/
import QueryMethods.Proofs.Grammar.Special
import QueryMethods.Proofs.Reading.Templates

namespace QueryMethods

/-- The comparison with its pattern as the store takes it. A store that knows the wildcards takes the
pattern itself, and for a null the empty text; any other takes a regular expression, which finds what the
pattern stands for (`Regex.read?_anchored` with `Regex.finds_anchored_iff`, and for a part of the field
`Regex.read?_unanchored` with `Regex.finds_unanchored_iff`). -/
def Comparison.written (style : PatternStyle) (k : Comparison) : Comparison :=
  match k.op, k.operand with
  | .like, .value (.str s) =>
    ⟨k.field, .like, .value (.str (if style = .native then s else style.write (some s)))⟩
  | .like, .value .null =>
    ⟨k.field, .like, .value (.str (if style = .native then "" else style.write none))⟩
  | _, _ => k

theorem Comparison.written_of_pattern {style : PatternStyle} {field pattern : String} {v : Value}
    (h : v.pattern style field = .ok pattern) :
    (Comparison.mk field .like (.value v)).written style = ⟨field, .like, .value (.str pattern)⟩ := by
  cases v <;> cases h <;> cases style <;> rfl

namespace Clause

/-- A reader that reads an operand after a column and a word. -/
def ReadsSigned (clause : ClauseReader) (column? : Token → Option String) (lists : ListForm) : Prop :=
  ∀ t field sign r, column? t = some field →
    clause (t :: .word sign :: r) = operand? lists field sign r

theorem readsSigned_signed (column? : Token → Option String) (lists : ListForm) :
    ReadsSigned (signed column? lists) column? lists := by
  intro t field sign r h
  rw [signed, h]
  rfl

end Clause

namespace Grammar

variable {refers : Char → Bool} {clause : ClauseReader} {column? : Token → Option String}
  {lists : Clause.ListForm} {field : String} {col : Template} {t : Token}

/-! ## Columns, signs and operands -/

/-- The tokens of a column, a text that begins with a space, and what is left. -/
theorem tokens_signed (hcol : IsColumn refers column? field col t) {s : String} (s' sign : String)
    {u : Template} (ts : List Token) (hs : s.toList = ' ' :: s'.toList) (hsilent : Silent refers s)
    (hclean : u.Clean refers)
    (htokens : Symbol.tokens (Symbol.ofText s' ++ u.symbols) = .word sign :: ts) :
    (col ++ Piece.text s :: u).Tells refers (· = t :: .word sign :: ts) where
  clean := Template.clean_append hcol.clean ⟨hsilent, hclean⟩ (Template.opens_text hs rfl u)
  tokens := by
    rw [Template.symbols_append, Template.symbols_cons, Piece.symbols, Symbol.ofText, hs]
    -- The space ends the column's word.
    show Symbol.tokens (col.symbols ++ .char ' ' :: (Symbol.ofText s' ++ u.symbols)) = _
    rw [Symbol.tokens_append (e := .char ' ') rfl, hcol.tokens, htokens]
    rfl

/-- A column, a text that begins with a space, and what is left: if this is a sign and an operand,
the whole is a comparison. -/
theorem tells_signed (hclause : Clause.ReadsSigned clause column? lists)
    (hcol : IsColumn refers column? field col t) {s : String} (s' sign : String)
    {u : Template} (ts : List Token) {k : Comparison} (hs : s.toList = ' ' :: s'.toList)
    (hsilent : Silent refers s) (hclean : u.Clean refers)
    (htokens : Symbol.tokens (Symbol.ofText s' ++ u.symbols) = .word sign :: ts)
    (hread : ∀ rest, Clause.operand? lists field sign (ts ++ rest) = some (k, rest)) :
    (col ++ Piece.text s :: u).Tells refers (clause.IsFactor fun holds => holds k) := by
  obtain ⟨hclean, hall⟩ := tokens_signed hcol s' sign ts hs hsilent hclean htokens
  refine ⟨hclean, ?_⟩
  rw [hall]
  refine ClauseReader.isFactor_clause hcol.free fun rest => ?_
  show clause (t :: .word sign :: (ts ++ rest)) = _
  rw [hclause t field sign _ hcol.read, hread]

/-- A sign is a word that stands for its operator between a column and a value. -/
def IsSign (op : Operator) (sign : String) : Prop :=
  isPlainText sign ∧
    (∀ v, Symbol.tokens (Symbol.ofText (sign ++ " ") ++ [.value v]) = [.word sign, .value v]) ∧
      ∀ lists field v rest, Clause.operand? lists field sign (.value v :: rest) =
        some (⟨field, op, .value v⟩, rest)

/-- The operators that are written as a sign between a column and a value. -/
def IsSigned (op : Operator) : Prop :=
  op ≠ .between ∧ op ≠ .oneOf

theorem isSign_symbol {op : Operator} (h : IsSigned op) : IsSign op op.symbol := by
  cases op with
  | between => exact absurd rfl h.1
  | oneOf => exact absurd rfl h.2
  | _ => exact ⟨rfl, fun _ => rfl, fun _ _ _ _ => rfl⟩

/-- The signs of a grammar stand for its operators. -/
def HasSigns (g : Grammar) : Prop :=
  ∀ op, IsSigned op → IsSign op (g.symbol op)

theorem hasSigns_atNamed (var : String) : (atNamed var).HasSigns := by
  intro op h
  cases op with
  | equal => exact (⟨rfl, fun _ => rfl, fun _ _ _ _ => rfl⟩ : IsSign .equal "==")
  | _ => exact isSign_symbol h

theorem hasSigns_dollarNamed (var : String) : (dollarNamed var).HasSigns := by
  intro op h
  cases op with
  | like => exact (⟨rfl, fun _ => rfl, fun _ _ _ _ => rfl⟩ : IsSign .like "=~")
  | _ => exact isSign_symbol h

theorem tells_value {g : Grammar} (hq : Quiet refers) (hclause : Clause.ReadsSigned clause column? lists)
    (hsigns : g.HasSigns) (hcol : IsColumn refers column? field col t) (op : Operator)
    (hop : IsSigned op) (name : String) (v : Value) :
    (col ++ [Piece.text (" " ++ g.symbol op ++ " "), .slot name v]).Tells refers
      (clause.IsFactor fun holds => holds ⟨field, op, .value v⟩) := by
  obtain ⟨hquiet, htokens, hread⟩ := hsigns op hop
  have hspace : Silent refers " " := hq.silent rfl
  refine tells_signed hclause hcol (g.symbol op ++ " ") (g.symbol op) [.value v] ?_
    ((hspace.append (hq.silent hquiet)).append hspace) ⟨trivial, trivial⟩ (htokens v) fun rest => ?_
  · rw [String.append_assoc, String.toList_append]
    rfl
  · exact hread lists field v rest

theorem tells_between (hq : Quiet refers) (hclause : Clause.ReadsSigned clause column? lists)
    (hcol : IsColumn refers column? field col t) (lo hi : Value) :
    (col ++ [Piece.text " BETWEEN ", low field lo, .text " AND ", high field hi]).Tells refers
      (clause.IsFactor fun holds => holds ⟨field, .between, .range lo hi⟩) := by
  refine tells_signed hclause hcol "BETWEEN " "BETWEEN" [.value lo, .word "AND", .value hi] rfl
    (hq.silent rfl) ?_ rfl fun rest => rfl
  exact ⟨Template.opens_text rfl rfl _, hq.silent rfl, trivial, trivial⟩

theorem tells_range {g : Grammar} (hq : Quiet refers)
    (hclause : Clause.ReadsSigned clause column? lists)
    (hcol : IsColumn refers column? field (g.column field) t) {op : Operator} {lo hi : Value}
    {u : Template} (hu : g.plain ⟨field, op, .range lo hi⟩ = .ok u) :
    u.Tells refers (clause.IsFactor fun holds => holds ⟨field, op, .range lo hi⟩) := by
  cases op with
  | between => cases hu; exact tells_between hq hclause hcol lo hi
  | _ => cases hu

/-- A comparison with a value, which a list must be as a whole. -/
theorem tells_plain {g : Grammar} (hq : Quiet refers)
    (hclause : Clause.ReadsSigned clause column? lists) (hsigns : g.HasSigns)
    (hcol : IsColumn refers column? field (g.column field) t) {op : Operator} {v : Value}
    (hlists : op = .oneOf → lists = .whole) {u : Template}
    (hu : g.plain ⟨field, op, .value v⟩ = .ok u) :
    u.Tells refers (clause.IsFactor fun holds =>
      holds ((Comparison.mk field op (.value v)).written g.patterns)) := by
  cases op with
  | between => cases hu
  | like =>
    obtain ⟨pattern, hp, rfl⟩ := ok_of_map hu
    rw [Comparison.written_of_pattern hp]
    exact tells_value hq hclause hsigns hcol .like ⟨nofun, nofun⟩ field (.str pattern)
  | oneOf =>
    obtain ⟨items, -, rfl⟩ := ok_of_map hu
    rw [hlists rfl] at hclause
    exact tells_signed hclause hcol "IN " "IN" [.value v] rfl (hq.silent rfl)
      ⟨trivial, trivial⟩ rfl fun rest => rfl
  | equal => cases hu; exact tells_value hq hclause hsigns hcol .equal ⟨nofun, nofun⟩ field v
  | greaterThan =>
    cases hu; exact tells_value hq hclause hsigns hcol .greaterThan ⟨nofun, nofun⟩ field v
  | greaterEqual =>
    cases hu; exact tells_value hq hclause hsigns hcol .greaterEqual ⟨nofun, nofun⟩ field v
  | lessThan => cases hu; exact tells_value hq hclause hsigns hcol .lessThan ⟨nofun, nofun⟩ field v
  | lessEqual => cases hu; exact tells_value hq hclause hsigns hcol .lessEqual ⟨nofun, nofun⟩ field v

/-- A comparison that its grammar writes as field, symbol and value. -/
theorem tells_comparison {g : Grammar} (hq : Quiet refers)
    (hclause : Clause.ReadsSigned clause column? lists) (hsigns : g.HasSigns) {k : Comparison}
    (hcol : IsColumn refers column? k.field (g.column k.field) t) (hspecial : g.special k = none)
    (hlists : k.IsList → lists = .whole) {u : Template}
    (hu : g.comparison k = .ok u) :
    u.Tells refers (clause.IsFactor fun holds => holds (k.written g.patterns)) := by
  have hplain : g.plain k = .ok u := by
    rw [comparison, hspecial] at hu
    split at hu
    · exact hu
    · cases hu
  obtain ⟨field, op, operand⟩ := k
  cases operand with
  | value v => exact tells_plain hq hclause hsigns hcol (fun h => hlists ⟨h, v, rfl⟩) hplain
  | range lo hi =>
    have hwritten : (Comparison.mk field op (.range lo hi)).written g.patterns =
        ⟨field, op, .range lo hi⟩ := by cases op <;> rfl
    rw [hwritten]
    exact tells_range hq hclause hcol hplain

/-! ## Lists -/

/-- A text between slots that is one token between values. -/
structure IsSeparator (refers : Char → Bool) (s : String) (t : Token) : Prop where
  silent : Silent refers s
  opens : ∀ u, Template.Opens (.text s :: u)
  tokens : ∀ ss, Symbol.tokens (Symbol.ofText s ++ ss) = t :: Symbol.tokens ss

theorem isSeparator_comma (hq : Quiet refers) : IsSeparator refers ", " (.mark ',') where
  silent := hq.silent rfl
  opens := Template.opens_text rfl rfl
  tokens _ := rfl

theorem isSeparator_or (hq : Quiet refers) : IsSeparator refers " OR " (.word "OR") where
  silent := hq.silent rfl
  opens := Template.opens_text rfl rfl
  tokens _ := rfl

/-- Slots with separators between them. -/
def slotsBetween (separator field : String) (vs : List Value) : Template :=
  Template.separated separator (vs.map fun v => [.slot field v])

theorem slotsBetween_cons_cons (separator field : String) (v w : Value) (vs : List Value) :
    slotsBetween separator field (v :: w :: vs) =
      .slot field v :: .text separator :: slotsBetween separator field (w :: vs) := by
  rw [slotsBetween, List.map_cons, List.map_cons, Template.separated_cons_cons]
  rfl

theorem clean_slotsBetween {separator : String} (hsep : IsSeparator refers separator t)
    (field : String) (vs : List Value) : (slotsBetween separator field vs).Clean refers :=
  Template.clean_slots hsep.silent hsep.opens field vs

theorem tokens_slotsBetween {separator : String} (hsep : IsSeparator refers separator t)
    (field : String) (vs : List Value) (r : List Symbol) :
    Symbol.tokens ((slotsBetween separator field vs).symbols ++ r) =
      Clause.between t vs ++ Symbol.tokens r := by
  induction vs with
  | nil => rfl
  | cons v vs ih =>
    cases vs with
    | nil => exact Symbol.tokens_cons (e := .value v) rfl r
    | cons w vs =>
      have hsymbols : (slotsBetween separator field (v :: w :: vs)).symbols ++ r =
          .value v :: (Symbol.ofText separator ++
            ((slotsBetween separator field (w :: vs)).symbols ++ r)) := by
        rw [slotsBetween_cons_cons]
        simp [Piece.symbols]
      rw [hsymbols, Symbol.tokens_cons (e := .value v) rfl, hsep.tokens, ih, Clause.between_cons_cons]
      rfl

/-- A list that is written out between brackets after a column. -/
theorem tells_items (opening s' closing : String) {o c : Char} (hq : Quiet refers)
    (hclause : Clause.ReadsSigned clause column? (.items o c))
    (hcol : IsColumn refers column? field col t) (vs : List Value)
    (hopening : opening.toList = ' ' :: s'.toList ∧ isPlainText opening)
    (htokens : ∀ ss, Symbol.tokens (Symbol.ofText s' ++ ss) =
      .word "IN" :: .mark o :: Symbol.tokens ss)
    (hclosing : closing.toList = [c] ∧ c ∉ sigils ∧ Params.isNameChar c = false ∧ c ≠ ',')
    (hend : (Symbol.char c).ends = some [.mark c]) :
    (col ++ Piece.text opening :: (itemSlots field vs ++ [.text closing])).Tells refers
      (clause.IsFactor fun holds => holds ⟨field, .oneOf, .value (.list vs)⟩) := by
  obtain ⟨hclosing, hquiet, hname, hcomma⟩ := hclosing
  have hcommas := isSeparator_comma hq
  refine tells_signed hclause hcol s' "IN" (.mark o :: (Clause.between (.mark ',') vs ++ [.mark c]))
    hopening.1 (hq.silent hopening.2) ?_ ?_ fun rest => ?_
  · refine Template.clean_append (clean_slotsBetween hcommas field vs) ⟨?_, trivial⟩
      (Template.opens_text hclosing hname _)
    intro x hx
    rw [hclosing, List.mem_singleton] at hx
    rw [hx]
    exact hq c hquiet
  · rw [htokens, Template.symbols_append]
    show _ :: _ :: Symbol.tokens ((slotsBetween ", " field vs).symbols ++ (Symbol.ofText closing ++ [])) = _
    rw [tokens_slotsBetween hcommas, Symbol.ofText, hclosing]
    show _ :: _ :: (_ ++ Symbol.tokens [.char c]) = _
    rw [Symbol.tokens_cons hend]
    rfl
  · have hbracket : (Token.mark ',').isMark c = false := by
      simpa [Token.isMark] using Ne.symm hcomma
    have hread := Clause.read_items o c hbracket vs rest
    have hin : Clause.operand? (.items o c) field "IN"
        (.mark o :: (Clause.between (.mark ',') vs ++ .mark c :: rest)) =
          (fun p => (Comparison.mk field .oneOf (.value p.1), p.2)) <$>
            (Clause.ListForm.items o c).read
              (.mark o :: (Clause.between (.mark ',') vs ++ .mark c :: rest)) := rfl
    rw [List.cons_append, List.append_assoc, List.singleton_append, hin, hread]
    rfl

end Grammar

end QueryMethods
