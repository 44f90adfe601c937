/-
The words of a method name. Both `findByFirstName` and `find_by_first_name` are the words find, by,
first, name: a word begins at a capital or after underscores, and a run of capitals is one word
whose last capital goes to the next word if a lowercase letter follows it.
-/
namespace QueryMethods.Name

/-- Names with an underscore are snake names, all others camel names. -/
inductive Style where
  | camel | snake
  deriving DecidableEq

/-- A word as it is spelled in the name and the byte at which it starts. -/
structure Word where
  start : Nat
  text : String
  deriving DecidableEq

/-- Why a name cannot be cut into words. -/
inductive WordError where
  | unexpectedCharacter (position : Nat)
  | noWords
  deriving DecidableEq

/-- The text of the error. -/
def WordError.message : WordError → String
  | .unexpectedCharacter position => "Unexpected character at " ++ toString position
  | .noWords => "Method name is empty"

/-- The word in lowercase, as keyword tables spell it. -/
def Word.folded (w : Word) : String :=
  w.text.toLower

/-! ## One word -/

/-- The capitals that go on with a word, and the rest of the text. -/
def takeCapitals : List Char → List Char × List Char
  | [] => ([], [])
  | c :: r =>
    if c.isUpper && !(r.head?.any Char.isLower) then
      (c :: (takeCapitals r).1, (takeCapitals r).2)
    else ([], c :: r)

/-- The characters that go on with a word in either style. -/
def isSmall (c : Char) : Bool :=
  c.isLower || c.isDigit

/-- The word that starts with `c`, and the rest of the text. -/
def takeWord (c : Char) (r : List Char) : List Char × List Char :=
  let start := if c.isUpper then takeCapitals r else ([], r)
  (c :: start.1 ++ start.2.takeWhile isSmall, start.2.dropWhile isSmall)

theorem takeCapitals_append (s : List Char) : (takeCapitals s).1 ++ (takeCapitals s).2 = s := by
  induction s with
  | nil => rfl
  | cons c r ih => rw [takeCapitals]; split <;> simp [ih]

/-- A word and its rest are the text they were taken from. -/
theorem takeWord_append (c : Char) (r : List Char) :
    (takeWord c r).1 ++ (takeWord c r).2 = c :: r := by
  by_cases h : c.isUpper <;> simp [takeWord, h, takeCapitals_append]

theorem length_takeWord (c : Char) (r : List Char) : (takeWord c r).2.length < r.length + 1 := by
  have h := congrArg List.length (takeWord_append c r)
  have : 0 < (takeWord c r).1.length := by simp [takeWord]
  simp only [List.length_append, List.length_cons] at h
  omega

/-! ## Scanning a name -/

/-- A place in a name: the text that is left and the byte at which it starts. -/
structure Scanner where
  style : Style
  position : Nat
  rest : List Char
  deriving DecidableEq

namespace Scanner

/-- The place at the beginning of a name. -/
def ofName (name : String) : Scanner where
  style := if name.toList.contains '_' then .snake else .camel
  position := 0
  rest := name.toList

/-- Whether nothing is left of the name. -/
def atEnd (s : Scanner) : Bool :=
  s.rest.isEmpty

/-- The byte that is `offset` bytes further on. -/
def byte? (s : Scanner) (offset : Nat) : Option UInt8 :=
  (String.ofList s.rest).toUTF8.toList[offset]?

/-- The place after the underscores that come next. -/
def skipUnderscores (s : Scanner) : Scanner :=
  { s with
    position := s.position + (s.rest.takeWhile (· == '_')).length
    rest := s.rest.dropWhile (· == '_') }

/-- Reads one word. All characters passed over are ASCII, so their number is that of their bytes. A
character that belongs to no word stays unread. -/
def next (s : Scanner) : Except WordError (Option Word) × Scanner :=
  let s := s.skipUnderscores
  match s.rest with
  | [] => (.ok none, s)
  | c :: r =>
    if c.isAlphanum then
      let word := (takeWord c r).1
      (.ok (some ⟨s.position, String.ofList word⟩),
        { s with position := s.position + word.length, rest := (takeWord c r).2 })
    else (.error (.unexpectedCharacter s.position), s)

theorem length_next {s : Scanner} {w : Word} (h : s.next.1 = .ok (some w)) :
    s.next.2.rest.length < s.rest.length := by
  have skip : s.skipUnderscores.rest.length ≤ s.rest.length :=
    (List.dropWhile_sublist _).length_le
  simp only [next] at h ⊢
  split at h
  · simp at h
  · rename_i c r hr
    have := length_takeWord c r
    rw [hr] at skip
    split at h
    · rename_i hc; simp only [hc, if_true]; simp only [List.length_cons] at skip; omega
    · simp at h

/-- All words from here on. -/
def words (s : Scanner) : Except WordError (List Word) :=
  match _h : s.next.1 with
  | .error e => .error e
  | .ok none => .ok []
  | .ok (some w) => (w :: ·) <$> words s.next.2
termination_by s.rest.length
decreasing_by exact length_next _h

/-- All words from here on, of which there must be one. -/
def someWords (s : Scanner) : Except WordError (List Word) :=
  match s.words with
  | .ok [] => .error .noWords
  | result => result

end Scanner

/-- The words of a whole name. -/
def words (name : String) : Except WordError (List Word) :=
  (Scanner.ofName name).someWords

/-- The style of a name. -/
def style (name : String) : Style :=
  (Scanner.ofName name).style

end QueryMethods.Name
