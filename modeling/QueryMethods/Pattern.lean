/-
LIKE patterns: a percent sign stands for any run of characters, an underscore for exactly one, all
else for itself. A pattern is handed to a store as it is or as the text of a regular expression.
-/
namespace QueryMethods

/-! ## Patterns around a text -/

/-- Where in a field a text is looked for. -/
inductive MatchKind where
  | whole | contains | startsWith | endsWith
  deriving DecidableEq

namespace MatchKind

/-- The name of a kind in error messages. -/
def name : MatchKind → String
  | .whole => "DEFAULT"
  | .contains => "CONTAINS"
  | .startsWith => "STARTS_WITH"
  | .endsWith => "ENDS_WITH"

/-- The pattern that looks for a text. -/
def around : MatchKind → String → String
  | .whole, s => s
  | .contains, s => "%" ++ s ++ "%"
  | .startsWith, s => s ++ "%"
  | .endsWith, s => "%" ++ s

end MatchKind

/-! ## Patterns as regular expressions -/

namespace Pattern

/-- The characters that a backslash makes literal in a regular expression. -/
def specials : List Char :=
  "\\.+*?()|[]\x7b\x7d^$#&-~".toList

/-- A character as it is written to stand for itself in a regular expression. -/
def literal (c : Char) : List Char :=
  if specials.contains c then ['\\', c] else [c]

/-- A run of percent signs becomes one `.*`, an underscore a dot, all else is made literal. -/
def toRegex : List Char → List Char
  | [] => []
  | '%' :: '%' :: r => toRegex ('%' :: r)
  | '%' :: r => '.' :: '*' :: toRegex r
  | '_' :: r => '.' :: toRegex r
  | c :: r => literal c ++ toRegex r

/-- A regular expression that matches nothing, not even the empty text. -/
def matchesNothing : String := "[^\\s\\S]"

end Pattern

/-- How a store takes patterns. -/
inductive PatternStyle where
  /-- The store knows the wildcards itself. -/
  | native
  /-- As a regular expression for the whole field. -/
  | anchored
  /-- As a regular expression for a part of the field. -/
  | unanchored
  deriving DecidableEq

namespace PatternStyle

/-- Whether patterns are handed over as regular expressions. -/
def isRegex : PatternStyle → Bool
  | .native => false
  | _ => true

/-- The text handed to the store for a pattern, or for a null in its place. -/
def write : PatternStyle → Option String → String
  | .native, pattern => pattern.getD ""
  | .anchored, none => Pattern.matchesNothing
  | .unanchored, none => ""
  | .anchored, some pattern =>
    if pattern.isEmpty then "" else "^" ++ String.ofList (Pattern.toRegex pattern.toList) ++ "$"
  | .unanchored, some pattern => String.ofList (Pattern.toRegex pattern.toList)

end PatternStyle

end QueryMethods
