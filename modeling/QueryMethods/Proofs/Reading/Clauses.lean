/-
Clauses: how a comparison is written in each of the infix dialects, as a reader of tokens sees it. A
reader takes one clause off the front of the tokens; what is between clauses are parentheses and the
words for the connectives. An AND in a BETWEEN and the brackets of a list or a bound are inside a
clause and are never seen as signs of the formula.
-/
import Mathlib.Data.List.Basic
import QueryMethods.Condition.Error
import QueryMethods.Proofs.Reading.Formula
import QueryMethods.Proofs.Reading.Tokens

namespace QueryMethods

namespace Token

/-- Whether the token is this mark. -/
def isMark (c : Char) : Token → Bool
  | .mark c' => c' == c
  | _ => false

/-- Whether the token is this word. -/
def isWord (w : String) : Token → Bool
  | .word w' => w' == w
  | _ => false

/-- The sign of the formula that a token is, unless it is a part of a clause. -/
def connective? : Token → Option (Lexeme Comparison)
  | .mark c => if c = '(' then some .opening else if c = ')' then some .closing else none
  | .word w =>
    if w = "AND" then some .and
    else if w = "OR" then some .or
    else if w = "NOT" then some .not
    else none
  | _ => none

end Token

/-- Reads a comparison at the front of the tokens and leaves the rest. -/
abbrev ClauseReader := List Token → Option (Comparison × List Token)

/-- The lexemes of a formula over clauses, each of which takes one token at least. -/
def ClauseReader.lexemes (clause : ClauseReader) : List Token → Option (List (Lexeme Comparison))
  | [] => some []
  | t :: ts =>
    match t.connective? with
    | some l => (l :: ·) <$> lexemes clause ts
    | none =>
      match clause (t :: ts) with
      | none => none
      | some (k, rest) =>
        if rest.length ≤ ts.length then (.atom k :: ·) <$> lexemes clause rest else none
termination_by ts => ts.length

/-! ## Parts of clauses -/

namespace Clause

/-- The signs that stand between a column and a value. -/
def signs : List (String × Operator) :=
  [("=", .equal), ("==", .equal), ("LIKE", .like), ("=~", .like), (">", .greaterThan),
    (">=", .greaterEqual), ("<", .lessThan), ("<=", .lessEqual)]

/-- Values with separators between them, up to a closing bracket. -/
def items? (separates : Token → Bool) (closing : Char) :
    List Token → Option (List Value × List Token)
  | .value v :: t :: r =>
    if t.isMark closing then some ([v], r)
    else if separates t then (fun (vs, rest) => (v :: vs, rest)) <$> items? separates closing r
    else none
  | _ => none

/-- The lists after an IN: one value that is a list, with or without parentheses, or the items of a
list between brackets. -/
inductive ListForm where
  | whole | spread
  | items (opening closing : Char)

/-- Reads a list in its form and leaves the tokens after it. -/
def ListForm.read : ListForm → List Token → Option (Value × List Token)
  | .whole, .value v :: r => some (v, r)
  | .spread, .mark m :: .value v :: .mark m' :: r =>
    if m = '(' ∧ m' = ')' then some (v, r) else none
  | .items opening closing, .mark m :: t :: r =>
    if m = opening then
      if t.isMark closing then some (.list [], r)
      else (fun (vs, rest) => (.list vs, rest)) <$> items? (Token.isMark ',') closing (t :: r)
    else none
  | _, _ => none

/-- Values with a separator between them. -/
def between (separator : Token) (vs : List Value) : List Token :=
  [separator].intercalate (vs.map fun v => [.value v])

theorem between_cons_cons (separator : Token) (v w : Value) (vs : List Value) :
    between separator (v :: w :: vs) = .value v :: separator :: between separator (w :: vs) := by
  rw [between, List.map_cons, List.map_cons, List.intercalate_cons_cons]
  rfl

/-- Values with separators between them are read up to the bracket that closes them. -/
theorem items?_between {separates : Token → Bool} {closing : Char} {separator : Token}
    (hsep : separates separator = true) (hclosing : separator.isMark closing = false) :
    ∀ (vs : List Value), vs ≠ [] → ∀ rest,
      items? separates closing (between separator vs ++ .mark closing :: rest) = some (vs, rest)
  | [], hne, _ => absurd rfl hne
  | [v], _, rest => by
    show items? separates closing (.value v :: .mark closing :: rest) = _
    simp [items?, Token.isMark]
  | v :: w :: vs, _, rest => by
    have ih := items?_between hsep hclosing (w :: vs) (by simp) rest
    rw [between_cons_cons, List.cons_append, List.cons_append, items?]
    simp [hsep, hclosing, ih]

/-- The items of a list, of which there may be none, are read between their brackets. -/
theorem read_items (opening closing : Char) (hclosing : (Token.mark ',').isMark closing = false)
    (vs : List Value) (rest : List Token) :
    (ListForm.items opening closing).read
        (.mark opening :: (between (.mark ',') vs ++ .mark closing :: rest)) =
      some (.list vs, rest) := by
  cases vs with
  | nil => simp [ListForm.read, Token.isMark, between, List.intercalate]
  | cons v vs =>
    have hread : items? (Token.isMark ',') closing
        (between (.mark ',') (v :: vs) ++ .mark closing :: rest) = some (v :: vs, rest) :=
      items?_between rfl hclosing (v :: vs) (by simp) rest
    -- The list begins with a value, which is no closing bracket.
    have hhead : ∃ r, between (.mark ',') (v :: vs) ++ .mark closing :: rest = .value v :: r := by
      cases vs with
      | nil => exact ⟨_, rfl⟩
      | cons w vs => exact ⟨_, rfl⟩
    obtain ⟨r, hr⟩ := hhead
    rw [hr] at hread ⊢
    rw [ListForm.read, if_pos rfl, hread]
    rfl

/-! ## Columns -/

/-- The column that is a word of its own. -/
def bare? : Token → Option String
  | .word w => some w
  | _ => none

/-- A field of what a variable stands for. -/
def member? (var : String) : Token → Option String
  | .word w => String.ofList <$> w.toList.dropPrefix? (var ++ ".").toList
  | _ => none

/-- A field in double quotes. -/
def quoted? : Token → Option String
  | .word w =>
    match w.toList with
    | c :: r => if c = '"' ∧ r.getLast? = some '"' then some (String.ofList r.dropLast) else none
    | _ => none
  | _ => none

/-- The column that is a path. -/
def path? : Token → Option String
  | .path p => some p
  | _ => none

/-! ## Clauses of the infix dialects -/

/-- What follows a column and the word after it. -/
def operand? (lists : ListForm) (field sign : String) (r : List Token) :
    Option (Comparison × List Token) :=
  if sign = "BETWEEN" then
    match r with
    | .value lo :: t :: .value hi :: rest =>
      if t.isWord "AND" then some (⟨field, .between, .range lo hi⟩, rest) else none
    | _ => none
  else if sign = "IN" then
    (fun (v, rest) => (⟨field, .oneOf, .value v⟩, rest)) <$> lists.read r
  else
    match signs.lookup sign, r with
    | some op, .value v :: rest => some (⟨field, op, .value v⟩, rest)
    | _, _ => none

/-- A column, a sign and an operand. -/
def signed (column? : Token → Option String) (lists : ListForm) : ClauseReader
  | t :: .word sign :: r => (column? t).bind fun field => operand? lists field sign r
  | _ => none

/-- A column between two bounds. -/
def chain (column? : Token → Option String) : ClauseReader
  | .value lo :: t :: u :: t' :: .value hi :: rest =>
    if t.isWord "<=" && t'.isWord "<=" then
      (fun field => (⟨field, .between, .range lo hi⟩, rest)) <$> column? u
    else none
  | _ => none

/-- A range as a chain, and any other comparison with a sign. -/
def chained (column? : Token → Option String) : ClauseReader := fun ts =>
  chain column? ts <|> signed column? .whole ts

/-- The functions that look for a text in a column, as patterns around the text. -/
def functions : List (String × MatchKind) :=
  [("begins_with", .startsWith), ("contains", .contains)]

/-- A function of a column and a text. -/
def call (column? : Token → Option String) : ClauseReader
  | .word function :: t :: u :: t' :: .value (.str s) :: t'' :: rest =>
    if t.isMark '(' && t'.isMark ',' && t''.isMark ')' then
      match functions.lookup function, column? u with
      | some kind, some field => some (⟨field, .like, .value (.str (kind.around s))⟩, rest)
      | _, _ => none
    else none
  | _ => none

/-! ## Clauses of search indexes -/

/-- What is between two bounds of which one may be open, after the first bracket. -/
def bounds? (field : String) (m : Char) : ClauseReader
  | .value lo :: t :: .value hi :: t' :: rest =>
    if t.isWord "TO" && m == '[' && t'.isMark ']' then
      some (⟨field, .between, .range lo hi⟩, rest)
    else none
  | .value v :: t :: u :: t' :: rest =>
    if t.isWord "TO" && u.isWord "*" then
      if m == '[' && t'.isMark ']' then some (⟨field, .greaterEqual, .value v⟩, rest)
      else if m == '\x7b' && t'.isMark '\x7d' then some (⟨field, .greaterThan, .value v⟩, rest)
      else none
    else none
  | u :: t :: .value v :: t' :: rest =>
    if t.isWord "TO" && u.isWord "*" then
      if m == '[' && t'.isMark ']' then some (⟨field, .lessEqual, .value v⟩, rest)
      else if m == '\x7b' && t'.isMark '\x7d' then some (⟨field, .lessThan, .value v⟩, rest)
      else none
    else none
  | _ => none

/-- What is looked for, after a field and a colon. -/
def sought? (field : String) : ClauseReader
  | .value v :: rest => some (⟨field, .equal, .value v⟩, rest)
  | .mark m :: r =>
    if m = '(' then
      (fun (vs, rest) => (⟨field, .oneOf, .value (.list vs)⟩, rest)) <$>
        items? (Token.isWord "OR") ')' r
    else if m = '/' then
      match r with
      | .value v :: t :: rest =>
        if t.isMark '/' then some (⟨field, .like, .value v⟩, rest) else none
      | _ => none
    else bounds? field m r
  | _ => none

/-- A field, a colon and what is sought in it. -/
def search : ClauseReader
  | .word field :: t :: r => if t.isMark ':' then sought? field r else none
  | _ => none

end Clause

/-! ## Lexemes of clauses -/

namespace ClauseReader

variable {clause : ClauseReader} {ts ts' : List Token} {ls ls' : List (Lexeme Comparison)}

/-- Tokens that are the given lexemes, whatever follows them. -/
def Lexes (clause : ClauseReader) (ts : List Token) (ls : List (Lexeme Comparison)) : Prop :=
  ∀ rest, clause.lexemes (ts ++ rest) = (ls ++ ·) <$> clause.lexemes rest

theorem Lexes.append (h : clause.Lexes ts ls) (h' : clause.Lexes ts' ls') :
    clause.Lexes (ts ++ ts') (ls ++ ls') := by
  intro rest
  rw [List.append_assoc, h, h']
  cases clause.lexemes rest with
  | none => rfl
  | some _ => simp

theorem lexes_connective {t : Token} {l : Lexeme Comparison} (h : t.connective? = some l) :
    clause.Lexes [t] [l] := by
  intro rest
  rw [List.singleton_append, lexemes, h]
  rfl

/-- A clause is one atom. -/
theorem lexes_clause {t : Token} {k : Comparison} (ht : t.connective? = none)
    (h : ∀ rest, clause (t :: ts ++ rest) = some (k, rest)) : clause.Lexes (t :: ts) [.atom k] := by
  intro rest
  -- The clause takes its first token at least, so the reader goes on.
  have hlen : rest.length ≤ (ts ++ rest).length := by
    rw [List.length_append]
    omega
  rw [List.cons_append, lexemes, ht]
  have hread := h rest
  rw [List.cons_append] at hread
  simp only [hread, if_pos hlen]
  rfl

/-! ## Formulas of clauses -/

variable {truth truth' : (Comparison → Bool) → Bool}

/-- Tokens that may stand in a conjunction. -/
def IsFactor (clause : ClauseReader) (truth : (Comparison → Bool) → Bool) (ts : List Token) : Prop :=
  ∃ ls, clause.Lexes ts ls ∧ Formula.IsFactor ls truth

/-- Tokens that may stand in parentheses. -/
def IsSum (clause : ClauseReader) (truth : (Comparison → Bool) → Bool) (ts : List Token) : Prop :=
  ∃ ls, clause.Lexes ts ls ∧ Formula.IsSum ls truth

theorem isFactor_clause {t : Token} {k : Comparison} (ht : t.connective? = none)
    (h : ∀ rest, clause (t :: ts ++ rest) = some (k, rest)) :
    clause.IsFactor (fun holds => holds k) (t :: ts) :=
  ⟨[.atom k], lexes_clause ht h, Formula.isFactor_atom k⟩

theorem IsFactor.isSum (h : clause.IsFactor truth ts) : clause.IsSum truth ts := by
  obtain ⟨ls, hlexes, hls⟩ := h
  exact ⟨ls, hlexes, hls.isSum⟩

theorem IsFactor.and (h : clause.IsFactor truth ts) (h' : clause.IsFactor truth' ts') :
    clause.IsFactor (fun holds => truth holds && truth' holds) (ts ++ .word "AND" :: ts') := by
  obtain ⟨ls, hlexes, hls⟩ := h
  obtain ⟨ls', hlexes', hls'⟩ := h'
  exact ⟨_, hlexes.append ((lexes_connective (t := .word "AND") rfl).append hlexes'), hls.and hls'⟩

theorem IsSum.or (h : clause.IsSum truth ts) (h' : clause.IsSum truth' ts') :
    clause.IsSum (fun holds => truth holds || truth' holds) (ts ++ .word "OR" :: ts') := by
  obtain ⟨ls, hlexes, hls⟩ := h
  obtain ⟨ls', hlexes', hls'⟩ := h'
  exact ⟨_, hlexes.append ((lexes_connective (t := .word "OR") rfl).append hlexes'), hls.or hls'⟩

theorem IsSum.group (h : clause.IsSum truth ts) :
    clause.IsFactor truth (.mark '(' :: ts ++ [.mark ')']) := by
  obtain ⟨ls, hlexes, hls⟩ := h
  have hopening : clause.Lexes [.mark '('] [.opening] := lexes_connective rfl
  have hclosing : clause.Lexes [.mark ')'] [.closing] := lexes_connective rfl
  exact ⟨_, (hopening.append hlexes).append hclosing, hls.group⟩

theorem IsSum.negation (h : clause.IsSum truth ts) :
    clause.IsFactor (fun holds => !truth holds) (.word "NOT" :: .mark '(' :: ts ++ [.mark ')']) := by
  obtain ⟨ls, hlexes, hls⟩ := h
  have hnot : clause.Lexes [.word "NOT"] [.not] := lexes_connective rfl
  have hopening : clause.Lexes [.mark '('] [.opening] := lexes_connective rfl
  have hclosing : clause.Lexes [.mark ')'] [.closing] := lexes_connective rfl
  exact ⟨_, ((hnot.append hopening).append hlexes).append hclosing, hls.negation⟩

/-- What is read of tokens that may stand in parentheses, when nothing follows. -/
theorem IsSum.read (h : clause.IsSum truth ts) :
    ∃ F, (clause.lexemes ts).bind Formula.read = some F ∧ ∀ holds, F.eval holds = truth holds := by
  obtain ⟨ls, hlexes, hls⟩ := h
  obtain ⟨F, hread, heval⟩ := hls.read
  have hall := hlexes []
  rw [List.append_nil, lexemes] at hall
  refine ⟨F, ?_, heval⟩
  rw [hall]
  simpa using hread

end ClauseReader

/-! ## Dialects -/

/-- The clauses of a dialect, over the variables that queries usually have. Steps of traversals are
no formula in infix form. -/
def Dialect.clause : Dialect → ClauseReader
  | .atNamed => Clause.signed (Clause.member? "e") .whole
  | .dollarNamed => Clause.chained (Clause.member? "n")
  | .driverPositional => Clause.signed Clause.bare? .whole
  | .expressionPositional => Clause.signed Clause.quoted? (.items '[' ']')
  | .itemExpression => fun ts =>
    Clause.call Clause.path? ts <|> Clause.signed Clause.path? (.items '(' ')') ts
  | .relationalNamed => Clause.signed Clause.bare? .spread
  | .relationalPositional => Clause.signed Clause.bare? (.items '(' ')')
  | .searchIndex => Clause.search
  | .gremlinScript => fun _ => none

end QueryMethods
