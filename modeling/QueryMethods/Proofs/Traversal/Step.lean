/-
Steps of traversal scripts and their reading. A step tests a key or is a call on anonymous steps; the
reader puts the characters of a script together to lexemes and goes over these once, with a stack of
the calls that are open. A key is whatever stands between two single quotes, where a backslash covers
the character after it.
-/
import QueryMethods.Condition.Basic
import QueryMethods.Proofs.Placeholder
import QueryMethods.Proofs.Separators
import QueryMethods.Proofs.Text.Redaction

namespace QueryMethods.Traversal

/-! ## Steps -/

/-- The functions that predicates apply to one name. -/
inductive Function where
  | gt | gte | lt | lte | within | regex

namespace Function

/-- Every function once. -/
def all : List Function := [.gt, .gte, .lt, .lte, .within, .regex]

/-- The word that a function is written as. -/
def name : Function → String
  | .gt => "gt"
  | .gte => "gte"
  | .lt => "lt"
  | .lte => "lte"
  | .within => "within"
  | .regex => "regex"

/-- The function of a word, if it is one. -/
def ofName? (word : String) : Option Function :=
  all.find? (·.name == word)

theorem ofName?_name (f : Function) : ofName? f.name = some f := by
  cases f <;> rfl

end Function

/-- What a key's value is tested with. Values stand in it under their names. -/
inductive Predicate where
  | equal (name : String)
  | call (f : Function) (name : String)
  /-- Both bounds are included. -/
  | bounds (low high : String)

/-- A step of a traversal. -/
inductive Step where
  | has (key : String) (p : Predicate)
  | junction (j : Junction) (children : List Step)
  | not (inner : Step)

/-- The word that a junction is called by. -/
def callee : Junction → String
  | .and => "and"
  | .or => "or"

/-- A predicate as it is written. -/
def Predicate.text : Predicate → String
  | .equal name => name
  | .call f name => f.name ++ "(" ++ name ++ ")"
  | .bounds low high => "gte(" ++ low ++ ").and(lte(" ++ high ++ "))"

/-- The names in a predicate, in order. -/
def Predicate.names : Predicate → List String
  | .equal name => [name]
  | .call _ name => [name]
  | .bounds low high => [low, high]

namespace Step

mutual

/-- A step as it is written. -/
def text : Step → String
  | .has key p => "has('" ++ key ++ "', " ++ p.text ++ ")"
  | .junction j xs => callee j ++ "(" ++ ", ".intercalate (arguments xs) ++ ")"
  | .not x => "not(__." ++ text x ++ ")"

/-- Steps as they are written as arguments, each begun anew. -/
def arguments : List Step → List String
  | [] => []
  | x :: r => ("__." ++ text x) :: arguments r

end

mutual

/-- The names of values from left to right. -/
def names : Step → List String
  | .has _ p => p.names
  | .junction _ xs => namesAll xs
  | .not x => names x

/-- The names in some steps, in order. -/
def namesAll : List Step → List String
  | [] => []
  | x :: r => names x ++ namesAll r

end

mutual

/-- Every key ends at the first quote that no backslash covers, and every value has a name. -/
def Proper : Step → Prop
  | .has key p => Text.IsBody (fun _ => True) '\'' key.toList ∧
      ∀ name ∈ p.names, Placeholder.IsIdentifier name
  | .junction _ xs => ProperAll xs
  | .not x => Proper x

/-- Each of some steps is proper. -/
def ProperAll : List Step → Prop
  | [] => True
  | x :: r => Proper x ∧ ProperAll r

end

end Step

/-! ## Lexemes -/

/-- What a script is made of. -/
inductive Lexeme where
  /-- A word right before an opening parenthesis. -/
  | opening (word : String)
  | word (s : String)
  | key (s : String)
  | closing | comma | space | dot
  | other (c : Char)

namespace Lexeme

/-- The lexeme that a character is on its own. -/
def ofChar : Char → Lexeme
  | ')' => .closing
  | ',' => .comma
  | ' ' => .space
  | '.' => .dot
  | c => .other c

/-- The word that the characters are, if there are any. -/
def flush (run : List Char) : List Lexeme :=
  if run.isEmpty then [] else [.word (String.ofList run)]

mutual

/-- The lexemes of a text, given the characters of the word that was begun. -/
def lex (run : List Char) : List Char → List Lexeme
  | [] => flush run
  | c :: r =>
    if Params.isNameChar c then lex (run ++ [c]) r
    else if c = '(' then .opening (String.ofList run) :: lex [] r
    else if c = '\'' then flush run ++ lexKey [] false r
    else flush run ++ ofChar c :: lex [] r

/-- The lexemes of a text, given the characters of the key that was begun. The flag tells whether the
next character is covered. -/
def lexKey (run : List Char) (covered : Bool) : List Char → List Lexeme
  | [] => [.other '\'']
  | c :: r =>
    if covered then lexKey (run ++ [c]) false r
    else if c = '\'' then .key (String.ofList run) :: lex [] r
    else lexKey (run ++ [c]) (c == '\\') r

end

theorem lex_run {s : List Char} (h : ∀ c ∈ s, Params.isNameChar c) (run r : List Char) :
    lex run (s ++ r) = lex (run ++ s) r := by
  induction s generalizing run with
  | nil => rw [List.append_nil]; rfl
  | cons c s ih =>
    obtain ⟨hc, hs⟩ := List.forall_mem_cons.1 h
    rw [List.cons_append, lex, if_pos hc, ih hs, List.append_assoc]
    rfl

/-- A key reaches up to the first quote that no backslash covers. -/
theorem lexKey_body {s : List Char} (h : Text.IsBody (fun _ => True) '\'' s) (run r : List Char) :
    lexKey run false (s ++ '\'' :: r) = .key (String.ofList (run ++ s)) :: lex [] r := by
  induction h generalizing run with
  | nil => rw [List.append_nil]; rfl
  | @plain c s hc hback _ ih =>
    rw [List.cons_append, lexKey, if_neg (by decide), if_neg hc, beq_false_of_ne hback, ih,
      List.append_assoc]
    rfl
  | @covered c s _ _ ih =>
    rw [List.cons_append, List.cons_append]
    show lexKey (run ++ ['\\'] ++ [c]) false _ = _
    rw [ih]
    simp only [List.append_assoc, List.cons_append, List.nil_append]

end Lexeme

/-- The lexemes of a predicate. -/
def Predicate.lexemes : Predicate → List Lexeme
  | .equal name => [.word name]
  | .call f name => [.opening f.name, .word name, .closing]
  | .bounds low high =>
    [.opening "gte", .word low, .closing, .dot, .opening "and", .opening "lte", .word high, .closing,
      .closing]

namespace Step

mutual

/-- The lexemes of a step. -/
def lexemes : Step → List Lexeme
  | .has key p => .opening "has" :: .key key :: .comma :: .space :: p.lexemes ++ [.closing]
  | .junction j xs => .opening (callee j) :: [.comma, .space].intercalate (argumentLexemes xs) ++ [.closing]
  | .not x => .opening "not" :: .word "__" :: .dot :: lexemes x ++ [.closing]

/-- The lexemes of each of some steps as an argument. -/
def argumentLexemes : List Step → List (List Lexeme)
  | [] => []
  | x :: r => (.word "__" :: .dot :: lexemes x) :: argumentLexemes r

end

end Step

/-! ## The lexemes of steps -/

namespace Lexeme

/-- The lexemes of a text, whatever comes after it. -/
def Spell (s : String) (ls : List Lexeme) : Prop :=
  ∀ r, lex [] (s.toList ++ r) = ls ++ lex [] r

theorem Spell.append {s t : String} {ls ms : List Lexeme} (hs : Spell s ls) (ht : Spell t ms) :
    Spell (s ++ t) (ls ++ ms) := by
  intro r
  rw [String.toList_append, List.append_assoc, hs, ht, List.append_assoc]

theorem spell_closing : Spell ")" [.closing] := fun _ => rfl

theorem spell_separator : Spell ", " [.comma, .space] := fun _ => rfl

theorem spell_anonymous : Spell "__." [.word "__", .dot] := fun _ => rfl

/-- A name is a word where a parenthesis is closed after it. -/
theorem spell_name {name : String} (h : Placeholder.IsIdentifier name) :
    Spell (name ++ ")") [.word name, .closing] := by
  intro r
  obtain ⟨c, s, hname, -⟩ := h.head
  have hflush : flush name.toList = [.word name] := by
    rw [flush, String.ofList_toList, hname]
    rfl
  rw [String.toList_append, List.append_assoc, lex_run h.chars, List.nil_append]
  show flush name.toList ++ _ = _
  rw [hflush]
  rfl

theorem spell_key {key : String} (h : Text.IsBody (fun _ => True) '\'' key.toList) :
    Spell ("has('" ++ key ++ "'") [.opening "has", .key key] := by
  intro r
  rw [String.toList_append, String.toList_append, List.append_assoc, List.append_assoc]
  show .opening "has" :: lexKey [] false (key.toList ++ '\'' :: r) = _
  rw [lexKey_body h, List.nil_append, String.ofList_toList]
  rfl

theorem spell_callee (j : Junction) : Spell (callee j ++ "(") [.opening (callee j)] := by
  cases j <;> exact fun _ => rfl

theorem spell_function (f : Function) : Spell (f.name ++ "(") [.opening f.name] := by
  cases f <;> exact fun _ => rfl

theorem spell_predicate {p : Predicate} (h : ∀ name ∈ p.names, Placeholder.IsIdentifier name) :
    Spell (p.text ++ ")") (p.lexemes ++ [.closing]) := by
  cases p with
  | equal name => exact spell_name (h name List.mem_cons_self)
  | call f name =>
    have hname := spell_name (h name List.mem_cons_self)
    have htext : (Predicate.call f name).text ++ ")" = f.name ++ "(" ++ (name ++ ")") ++ ")" := by
      simp only [Predicate.text, String.append_assoc]
    rw [htext]
    exact ((spell_function f).append hname).append spell_closing
  | bounds low high =>
    have hlow := spell_name (h low List.mem_cons_self)
    have hhigh := spell_name (h high (List.mem_cons_of_mem low List.mem_cons_self))
    have hfirst : Spell "gte(" [.opening "gte"] := fun _ => rfl
    have hsecond : Spell ".and(lte(" [.dot, .opening "and", .opening "lte"] := fun _ => rfl
    have htext : (Predicate.bounds low high).text ++ ")" =
        "gte(" ++ (low ++ ")") ++ ".and(lte(" ++ (high ++ ")") ++ (")" ++ ")") := by
      rw [← String.toList_inj]
      simp [Predicate.text]
    rw [htext]
    exact (((hfirst.append hlow).append hsecond).append hhigh).append
      (spell_closing.append spell_closing)

mutual

theorem spell_step : ∀ (x : Step), x.Proper → Spell x.text x.lexemes
  | .has k p, h => by
    have htext : (Step.has k p).text = "has('" ++ k ++ "'" ++ ", " ++ (p.text ++ ")") := by
      rw [← String.toList_inj]
      simp [Step.text]
    rw [htext]
    exact ((spell_key h.1).append spell_separator).append (spell_predicate h.2)
  | .junction j xs, h => by
    rw [Step.text, Step.lexemes]
    exact ((spell_callee j).append (spell_arguments xs h)).append spell_closing
  | .not x, h => by
    have hcall : Spell "not(__." [.opening "not", .word "__", .dot] := fun _ => rfl
    rw [Step.text, Step.lexemes]
    exact (hcall.append (spell_step x h)).append spell_closing

theorem spell_arguments : ∀ (xs : List Step), Step.ProperAll xs →
    Spell (", ".intercalate (Step.arguments xs))
      ([Lexeme.comma, .space].intercalate (Step.argumentLexemes xs))
  | [], _ => by
    rw [Step.arguments, Step.argumentLexemes, String.intercalate_nil, List.intercalate_nil]
    exact fun _ => rfl
  | [x], h => by
    rw [Step.argumentLexemes, Step.argumentLexemes, List.intercalate_singleton]
    exact spell_anonymous.append (spell_step x h.1)
  | x :: y :: r, h => by
    have hfirst := spell_anonymous.append (spell_step x h.1)
    have hothers := spell_arguments (y :: r) h.2
    rw [Step.arguments, Step.arguments, String.intercalate_cons_cons, Step.argumentLexemes,
      Step.argumentLexemes, List.intercalate_cons_cons]
    exact (hfirst.append spell_separator).append hothers

end

end Lexeme

/-! ## Reading -/

/-- A call that is open: a junction and the arguments that it has so far, or a negation. -/
inductive Frame where
  | junction (j : Junction) (done : List Step)
  | negation

namespace Frame

/-- The call with its last argument. -/
def close : Frame → Step → Step
  | .junction j done, x => .junction j (done ++ [x])
  | .negation, x => .not x

/-- The call that a word opens. -/
def ofWord? (word : String) : Option Frame :=
  [("and", .junction .and []), ("or", .junction .or []), ("not", .negation)].lookup word

end Frame

/-- The junction of a word, if it is one. -/
def junction? (word : String) : Option Junction :=
  [("and", Junction.and), ("or", .or)].lookup word

namespace Step

mutual

/-- Goes on where a step is due. -/
def step (stack : List Frame) : List Lexeme → Option Step
  | .opening word :: .key key :: .comma :: .space :: r =>
    if word = "has" then predicate stack key r else none
  | .opening word :: .closing :: r =>
    match junction? word with
    | some j => after stack (.junction j []) r
    | none => none
  | .opening word :: .word anonymous :: .dot :: r =>
    if anonymous = "__" then
      match Frame.ofWord? word with
      | some frame => step (frame :: stack) r
      | none => none
    else none
  | _ => none

/-- Goes on where the predicate of a key is due. -/
def predicate (stack : List Frame) (key : String) : List Lexeme → Option Step
  | .word name :: .closing :: r => after stack (.has key (.equal name)) r
  | .opening word :: .word name :: .closing :: .closing :: r =>
    match Function.ofName? word with
    | some f => after stack (.has key (.call f name)) r
    | none => none
  | .opening word :: .word low :: .closing :: .dot :: .opening both :: .opening word' :: .word high ::
      .closing :: .closing :: .closing :: r =>
    if word = "gte" ∧ both = "and" ∧ word' = "lte" then
      after stack (.has key (.bounds low high)) r
    else none
  | _ => none

/-- Goes on after a step. -/
def after (stack : List Frame) (x : Step) : List Lexeme → Option Step
  | .closing :: r =>
    match stack with
    | frame :: stack => after stack (frame.close x) r
    | [] => none
  | .comma :: .space :: .word anonymous :: .dot :: r =>
    match stack with
    | .junction j done :: stack =>
      if anonymous = "__" then step (.junction j (done ++ [x]) :: stack) r else none
    | _ => none
  | [] => if stack.isEmpty then some x else none
  | _ => none

end

/-- The step that a script is, if it is one. -/
def read (script : String) : Option Step :=
  step [] (Lexeme.lex [] script.toList)

theorem predicate_lexemes (stack : List Frame) (key : String) (p : Predicate) (r : List Lexeme) :
    predicate stack key (p.lexemes ++ .closing :: r) = after stack (.has key p) r := by
  cases p with
  | equal name => rfl
  | call f name =>
    show (match Function.ofName? f.name with | some f => _ | none => _) = _
    rw [Function.ofName?_name]
  | bounds low high => rfl

mutual

/-- Reading a step goes on after it, whatever calls are open and whatever comes next. -/
theorem step_lexemes : ∀ (x : Step) (stack : List Frame) (r : List Lexeme),
    step stack (x.lexemes ++ r) = after stack x r
  | .has key p, stack, r => by
    rw [lexemes, List.append_assoc]
    exact predicate_lexemes stack key p r
  | .junction j [], stack, r => by
    cases j <;> rfl
  | .junction j (x :: xs), stack, r => by
    have hopen (ls : List Lexeme) :
        step stack (.opening (callee j) :: .word "__" :: .dot :: ls) =
          step (.junction j [] :: stack) ls := by cases j <;> rfl
    rw [lexemes, argumentLexemes, intercalate_cons]
    show step stack (.opening (callee j) :: .word "__" :: .dot :: ((x.lexemes ++ _) ++ [.closing] ++ r)) = _
    rw [hopen, List.append_assoc, List.append_assoc, step_lexemes x]
    exact after_arguments xs j [] x stack r
  | .not x, stack, r => by
    rw [lexemes]
    show step (.negation :: stack) ((x.lexemes ++ [.closing]) ++ r) = _
    rw [List.append_assoc, step_lexemes x]
    rfl

/-- The other arguments of a junction that is open join those that it has. -/
theorem after_arguments : ∀ (xs : List Step) (j : Junction) (done : List Step) (x : Step)
    (stack : List Frame) (r : List Lexeme),
    after (.junction j done :: stack) x
        ((argumentLexemes xs).flatMap ([.comma, .space] ++ ·) ++ .closing :: r) =
      after stack (.junction j (done ++ x :: xs)) r
  | [], _, _, _, _, _ => rfl
  | y :: ys, j, done, x, stack, r => by
    rw [argumentLexemes, List.flatMap_cons]
    show step (.junction j (done ++ [x]) :: stack) ((y.lexemes ++ _) ++ .closing :: r) = _
    rw [List.append_assoc, step_lexemes y, after_arguments ys, List.append_assoc]
    rfl

end

/-- A script that is the text of a proper step is read as the step. -/
theorem read_text {x : Step} (h : x.Proper) : read x.text = some x := by
  have hlexemes := Lexeme.spell_step x h []
  rw [List.append_nil] at hlexemes
  rw [read, hlexemes, step_lexemes]
  rfl

example : step [] [.opening "or", .word "__", .dot, .opening "has", .key "gt", .comma, .space,
    .word "gt", .closing, .comma, .space, .word "__", .dot, .opening "and", .closing, .closing] =
      some (.junction .or [.has "gt" (.equal "gt"), .junction .and []]) := rfl

end Step

end QueryMethods.Traversal
