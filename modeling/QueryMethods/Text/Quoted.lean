/-
The ways a text is put between delimiters: single quotes, where a backslash that the text already
has keeps covering the character after it; double quotes, where every quote and backslash is
covered, or every quote is doubled; and the slashes of a regular expression, where only slashes are
covered.
-/
namespace QueryMethods.Text

/-- Puts a backslash before each quote that no backslash covers, and one at the end if the text
ends in a backslash that would cover the closing quote. The flag tells whether the next character
is covered. -/
def coverQuotes : Bool → List Char → List Char
  | false, [] => []
  | true, [] => ['\\']
  | true, c :: r => c :: coverQuotes false r
  | false, c :: r =>
    if c = '\'' then '\\' :: c :: coverQuotes false r else c :: coverQuotes (c == '\\') r

/-- The text with backslashes before its single quotes, as it stands between two of them. -/
def escapeQuotes (s : String) : String :=
  String.ofList (coverQuotes false s.toList)

/-- A text between single quotes. -/
def singleQuoted (s : String) : String :=
  "'" ++ escapeQuotes s ++ "'"

/-- Puts a backslash before every double quote and every backslash. -/
def coverPhrase (s : List Char) : List Char :=
  s.flatMap fun c => if c = '"' ∨ c = '\\' then ['\\', c] else [c]

/-- A text between double quotes. -/
def phrase (s : String) : String :=
  "\"" ++ String.ofList (coverPhrase s.toList) ++ "\""

/-- Puts a backslash before every slash. -/
def coverSlashes (s : List Char) : List Char :=
  s.flatMap fun c => if c = '/' then ['\\', c] else [c]

/-- The body of a regular expression that stands between slashes. -/
def regexBody (s : String) : String :=
  String.ofList (coverSlashes s.toList)

/-- Writes each double quote twice and puts the text between double quotes. -/
def doubledQuoted (s : String) : String :=
  "\"" ++ String.ofList (s.toList.flatMap fun c => if c = '"' then [c, c] else [c]) ++ "\""

end QueryMethods.Text
