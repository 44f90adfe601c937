/-
Plans: what a derived query name says. A name is a verb, words without meaning, the word by, and
segments joined by and within groups joined by or; a segment is a field and how it is compared.
-/
import QueryMethods.Name.Keyword
import QueryMethods.Name.Word
namespace QueryMethods.Name

/-! ## Types -/

/-- A field with the keyword that is said of it. -/
structure Segment where
  field : String
  keyword : Keyword
  deriving DecidableEq

/-- A disjunction of conjunctions of segments. -/
structure Plan where
  subject : Subject
  disjuncts : List (List Segment)
  deriving DecidableEq

namespace Plan

/-- The segments of all groups, from left to right. -/
def segments (p : Plan) : List Segment :=
  p.disjuncts.flatten

/-- The number of arguments that segments take together. -/
def arityOf : List Segment → Nat
  | [] => 0
  | s :: r => s.keyword.arity + arityOf r

/-- The number of arguments that an invocation supplies. -/
def arity (p : Plan) : Nat :=
  arityOf p.segments

end Plan

/-- Why a name is not that of a derived query. -/
inductive ParseError where
  | word (cause : WordError)
  | unknownVerb (verb : String)
  | missingBy
  /-- The position is the length of the name in bytes. -/
  | emptySegment (position : Nat)
  /-- The head is that of the keyword that stands alone. -/
  | missingField (head : String)
  deriving DecidableEq

/-- The text of the error. -/
def ParseError.message : ParseError → String
  | .word cause => cause.message
  | .unknownVerb verb => "Unknown query prefix `" ++ verb ++ "`"
  | .missingBy => "Expected `By` after the query prefix"
  | .emptySegment position => "Empty predicate segment at " ++ toString position
  | .missingField head => "Operator `" ++ head ++ "` is missing a field name"

/-! ## Fields -/

/-- The first word of a camel field: a run of capitals is lowered whole, any other word only at its
first letter. -/
def lowerFirst (word : String) : String :=
  match word.toList with
  | [] => ""
  | c :: r =>
    if (c :: r).all (!·.isLower) then word.toLower else String.ofList (c.toLower :: r)

/-- The field that the words spell: snake words between underscores, camel words run together. -/
def fieldOf : Style → List String → String
  | .snake, words => "_".intercalate words
  | .camel, [] => ""
  | .camel, w :: r => lowerFirst w ++ String.join r

/-! ## Parsing -/

/-- The phrase at the end of the words and its keyword; without one the keyword is `equal`. -/
def trailingPhrase (words : List String) : List String × Keyword :=
  (Keyword.phrases.find? (·.1.isSuffixOf words)).getD ([], .equal)

/-- The segment that the words make up in a name of the given style and length. -/
def Segment.ofWords (style : Style) (length : Nat) (words : List Word) :
    Except ParseError Segment :=
  if words.isEmpty then .error (.emptySegment length)
  else
    let (phrase, keyword) := trailingPhrase (words.map Word.folded)
    let field := words.take (words.length - phrase.length)
    if field.isEmpty then .error (.missingField keyword.head)
    else .ok ⟨fieldOf style (field.map Word.text), keyword⟩

/-- The groups between the words that fold to the separator, of which there is always one more. -/
def splitAt (separator : String) (words : List Word) : List (List Word) :=
  words.splitOnP (·.folded == separator)

/-- The plan that a method name spells. -/
def parse (name : String) : Except ParseError Plan :=
  match words name with
  | .error e => .error (.word e)
  | .ok [] => .error (.word .noWords)
  | .ok (first :: rest) => do
    let some subject := verbs.lookup first.folded | throw (.unknownVerb first.text)
    match rest.dropWhile (·.folded != "by") with
    | [] => throw .missingBy
    | _ :: predicate =>
      if predicate.isEmpty then throw (.emptySegment name.utf8ByteSize)
      let segment := Segment.ofWords (style name) name.utf8ByteSize
      let disjuncts ← (splitAt "or" predicate).mapM fun group =>
        (splitAt "and" group).mapM segment
      return ⟨subject, disjuncts⟩

end QueryMethods.Name
