/-
Tokens: the symbols of a query text put together. A value is a token of its own, as is a bracket, a
comma, a colon and a slash; what is left between these and the spaces is a word, or the path of a
column if a part of it is aliased.
-/
import QueryMethods.Proofs.Reading.Symbols

namespace QueryMethods

/-- What symbols are put together into. -/
inductive Token where
  | mark (c : Char)
  | word (s : String)
  | path (s : String)
  | value (v : Value)

namespace Symbol

/-- The characters that are tokens of their own. -/
def marks : List Char := "()[]\x7b\x7d,:/".toList

/-- The tokens that a symbol makes when it ends the word before it; other symbols are in words. -/
def ends : Symbol → Option (List Token)
  | .char c => if c = ' ' then some [] else if c ∈ marks then some [.mark c] else none
  | .column _ => none
  | .value v => some [.value v]

/-- Whether the symbol is a column. -/
def isColumn : Symbol → Bool
  | .column _ => true
  | _ => false

/-- The characters of a symbol in a word. -/
def chars : Symbol → List Char
  | .char c => [c]
  | .column name => name.toList
  | .value _ => []

/-- The token of the symbols between two ends. -/
def wordOf (run : List Symbol) : Token :=
  let text := String.ofList (run.flatMap chars)
  if run.any isColumn then .path text else .word text

/-- The token that a run of symbols ends with, if there is a run. -/
def flush (run : List Symbol) : List Token :=
  if run.isEmpty then [] else [wordOf run]

/-- The tokens of the symbols, given those that a word was begun with. -/
def tokensAfter (run : List Symbol) : List Symbol → List Token
  | [] => flush run
  | s :: r =>
    match s.ends with
    | some ts => flush run ++ (ts ++ tokensAfter [] r)
    | none => tokensAfter (run ++ [s]) r

/-- The tokens of symbols. -/
def tokens (ss : List Symbol) : List Token :=
  tokensAfter [] ss

/-! ## Words and ends -/

theorem tokensAfter_end {e : Symbol} {ts : List Token} (h : e.ends = some ts)
    (run r : List Symbol) : tokensAfter run (e :: r) = flush run ++ (ts ++ tokens r) := by
  rw [tokensAfter, h]
  rfl

theorem tokensAfter_more {s : Symbol} (h : s.ends = none) (run r : List Symbol) :
    tokensAfter run (s :: r) = tokensAfter (run ++ [s]) r := by
  rw [tokensAfter, h]

theorem tokensAfter_append {e : Symbol} {ts : List Token} (h : e.ends = some ts) (ss r : List Symbol) :
    ∀ run, tokensAfter run (ss ++ e :: r) = tokensAfter run ss ++ (ts ++ tokens r) := by
  induction ss with
  | nil => intro run; exact tokensAfter_end h run r
  | cons s ss ih =>
    intro run
    cases hs : s.ends with
    | none => rw [List.cons_append, tokensAfter_more hs, tokensAfter_more hs, ih]
    | some us =>
      -- An earlier end has flushed its word, and from there on no word is begun.
      have := ih []
      rw [← tokens, ← tokens] at this
      rw [List.cons_append, tokensAfter_end hs, tokensAfter_end hs, this]
      simp only [List.append_assoc]

/-- An end parts the tokens before it from those after it. -/
theorem tokens_append {e : Symbol} {ts : List Token} (h : e.ends = some ts) (ss r : List Symbol) :
    tokens (ss ++ e :: r) = tokens ss ++ (ts ++ tokens r) :=
  tokensAfter_append h ss r []

theorem tokens_cons {e : Symbol} {ts : List Token} (h : e.ends = some ts) (r : List Symbol) :
    tokens (e :: r) = ts ++ tokens r :=
  tokens_append h [] r

theorem tokensAfter_run {ss : List Symbol} (h : ∀ s ∈ ss, s.ends = none) :
    ∀ run, tokensAfter run ss = flush (run ++ ss) := by
  induction ss with
  | nil => intro run; rw [List.append_nil, tokensAfter]
  | cons s ss ih =>
    intro run
    rw [tokensAfter_more (h s List.mem_cons_self), ih fun x hx => h x (List.mem_cons_of_mem s hx),
      List.append_assoc]
    rfl

/-- Symbols none of which is an end are one word. -/
theorem tokens_run {ss : List Symbol} (h : ∀ s ∈ ss, s.ends = none) (hne : ss ≠ []) :
    tokens ss = [wordOf ss] := by
  rw [tokens, tokensAfter_run h, List.nil_append, flush, List.isEmpty_eq_false_iff.2 hne]
  rfl

theorem ofText_append (s t : String) : ofText (s ++ t) = ofText s ++ ofText t := by
  rw [ofText, String.toList_append, List.map_append]
  rfl

/-- Characters of which none is an end are one word. -/
theorem tokens_word {s : String} (h : ∀ c ∈ s.toList, (Symbol.char c).ends = none) (hne : s ≠ "") :
    tokens (ofText s) = [.word s] := by
  have hcolumn : (ofText s).any isColumn = false := by
    simp [ofText, isColumn]
  have htext : (ofText s).flatMap chars = s.toList := by
    simp [ofText, List.flatMap_map, chars]
  rw [tokens_run, wordOf, hcolumn, htext, String.ofList_toList]
  · rfl
  · intro x hx
    obtain ⟨c, hc, rfl⟩ := List.mem_map.1 hx
    exact h c hc
  · intro hnil
    exact hne (String.toList_inj.1 (List.map_eq_nil_iff.1 hnil))

/-- A word and what ends it. -/
theorem tokens_word_append {s : String} (h : ∀ c ∈ s.toList, (Symbol.char c).ends = none)
    (hne : s ≠ "") {e : Symbol} {ts : List Token} (he : e.ends = some ts) (r : List Symbol) :
    tokens (ofText s ++ e :: r) = .word s :: (ts ++ tokens r) := by
  rw [tokens_append he, tokens_word h hne]
  rfl

end Symbol

end QueryMethods
