/-
Marks: the question marks of a query text that stand for values. Names may stand between double
quotes, where a quote is written twice and a question mark is a character like any other; the marks
outside of such names take the values from left to right.
-/
import QueryMethods.Proofs.Reading.Symbols

namespace QueryMethods.Symbol

/-! ## Quoted names -/

/-- The symbols of a text with names between double quotes, given the characters of the name that was
begun. Two quotes in a name stand for one, and a name that is not ended is no name. -/
def quoted : Option (List Char) → List Char → Option (List Symbol)
  | none, [] => some []
  | none, c :: r => if c = '"' then quoted (some []) r else (.char c :: ·) <$> quoted none r
  | some _, [] => none
  | some name, '"' :: '"' :: r => quoted (some (name ++ ['"'])) r
  | some name, c :: r =>
    if c = '"' then (.column (String.ofList name) :: ·) <$> quoted none r
    else quoted (some (name ++ [c])) r

theorem quoted_text {s : List Char} (h : '"' ∉ s) (r : List Char) :
    quoted none (s ++ r) = (s.map .char ++ ·) <$> quoted none r := by
  induction s with
  | nil => cases h : quoted none r <;> simp [h]
  | cons c s ih =>
    obtain ⟨hc, hs⟩ := not_or.1 (mt List.mem_cons.2 h)
    rw [List.cons_append, quoted, if_neg (Ne.symm hc), ih hs]
    cases quoted none r <;> rfl

section Name

variable {c : Char} {r : List Char} (name : List Char)

theorem quoted_end (hr : r.head? ≠ some '"') :
    quoted (some name) ('"' :: r) = (.column (String.ofList name) :: ·) <$> quoted none r := by
  rw [quoted]
  · exact if_pos rfl
  · rintro r' - rfl
    exact hr rfl

theorem quoted_quote : quoted (some name) ('"' :: '"' :: r) = quoted (some (name ++ ['"'])) r := by
  rw [quoted]

theorem quoted_char (hc : c ≠ '"') :
    quoted (some name) (c :: r) = quoted (some (name ++ [c])) r := by
  rw [quoted]
  · exact if_neg hc
  · intro r' h
    exact absurd h hc

/-- A name that is written with its quotes doubled is read back, up to a quote that ends it. -/
theorem quoted_doubled (s : List Char) (hr : r.head? ≠ some '"') :
    quoted (some name) ((s.flatMap fun c => if c = '"' then [c, c] else [c]) ++ '"' :: r) =
      (.column (String.ofList (name ++ s)) :: ·) <$> quoted none r := by
  induction s generalizing name with
  | nil =>
    rw [List.append_nil]
    exact quoted_end name hr
  | cons c s ih =>
    rw [List.flatMap_cons, List.append_assoc]
    by_cases hc : c = '"'
    · subst hc
      rw [if_pos rfl, List.cons_append, List.cons_append, List.nil_append, quoted_quote, ih,
        List.append_assoc]
      rfl
    · rw [if_neg hc, List.cons_append, List.nil_append, quoted_char name hc, ih, List.append_assoc]
      rfl

example : quoted none "\"a\"\"?\" = ?".toList = some (.column "a\"?" :: ofText " = ?") := rfl

end Name

/-! ## Marks -/

/-- Whether the symbol is a question mark. -/
def isMark : Symbol → Bool
  | .char c => c == '?'
  | _ => false

/-- The value that the symbol is, if it is one. -/
def value? : Symbol → Option Value
  | .value v => some v
  | _ => none

/-- The column that the symbol is, if it is one. -/
def column? : Symbol → Option String
  | .column name => some name
  | _ => none

/-- The symbol with a mark in the place of a value. -/
def marked : Symbol → Symbol
  | .value _ => .char '?'
  | s => s

/-- Puts the values in the places of the marks, of which there are as many. -/
def fill : List Value → List Symbol → Option (List Symbol)
  | vs, [] => if vs.isEmpty then some [] else none
  | vs, s :: r =>
    if s.isMark then
      match vs with
      | [] => none
      | v :: vs => (.value v :: ·) <$> fill vs r
    else (s :: ·) <$> fill vs r

variable {ss : List Symbol}

theorem fill_marked (h : ∀ s ∈ ss, s.isMark = false) :
    fill (ss.filterMap value?) (ss.map marked) = some ss := by
  induction ss with
  | nil => rfl
  | cons s ss ih =>
    have hs := h s List.mem_cons_self
    have hss := ih fun x hx => h x (List.mem_cons_of_mem s hx)
    cases s with
    | value v =>
      show (Symbol.value v :: ·) <$> fill (ss.filterMap value?) (ss.map marked) = _
      rw [hss]
      rfl
    | char c =>
      show fill (ss.filterMap value?) (.char c :: ss.map marked) = _
      unfold fill
      rw [hs, hss]
      rfl
    | column name =>
      show (Symbol.column name :: ·) <$> fill (ss.filterMap value?) (ss.map marked) = _
      rw [hss]
      rfl

/-- There are as many marks as values. -/
theorem countP_marked (h : ∀ s ∈ ss, s.isMark = false) :
    (ss.map marked).countP isMark = (ss.filterMap value?).length := by
  induction ss with
  | nil => rfl
  | cons s ss ih =>
    have hs := h s List.mem_cons_self
    rw [List.map_cons, List.countP_cons, ih fun x hx => h x (List.mem_cons_of_mem s hx)]
    cases s with
    | value v => rfl
    | char c =>
      show _ + (if (Symbol.char c).isMark = true then 1 else 0) = _
      rw [hs]
      rfl
    | column name => rfl

theorem columns_marked (ss : List Symbol) :
    (ss.map marked).filterMap column? = ss.filterMap column? := by
  rw [List.filterMap_map]
  congr 1
  funext s
  cases s <;> rfl

end QueryMethods.Symbol
