/-
Two styles, one meaning. A method that is named in camel style and the method that is named by the
same words in snake style have queries of one origin, and fail alike where they have none: a name
counts only by its words, and shows its style nowhere but in the spelling of its fields.
-/
import QueryMethods.Method.Origin
import QueryMethods.Proofs.Name.RoundTrip

namespace QueryMethods

namespace Name

/-! ## Plans and errors of two styles -/

/-- Segments of one keyword whose fields are spelled in either style from the same words, which stand
together in the name. -/
structure Segment.Respelled (name : List String) (s s' : Segment) : Prop where
  keyword : s.keyword = s'.keyword
  fields : ∃ ws, ws ≠ [] ∧ ws <:+: name ∧ s.field = spell .camel ws ∧ s'.field = spell .snake ws

/-- Plans of one subject with as many groups of as many segments, each in either style. -/
structure Plan.Respelled (name : List String) (p p' : Plan) : Prop where
  subject : p.subject = p'.subject
  disjuncts : List.Forall₂ (List.Forall₂ (Segment.Respelled name)) p.disjuncts p'.disjuncts

/-- Errors of one kind that differ at most in a position. That a character belongs to no word is an
error of none of the names in question. -/
inductive ParseError.Alike : ParseError → ParseError → Prop
  | unknownVerb (verb : String) : Alike (.unknownVerb verb) (.unknownVerb verb)
  | missingBy : Alike .missingBy .missingBy
  | emptySegment (position position' : Nat) : Alike (.emptySegment position) (.emptySegment position')
  | missingField (head : String) : Alike (.missingField head) (.missingField head)

/-! ## Parsing -/

/-- Only the field of a segment shows the style, and only the error of an empty one its place. -/
theorem paired_segmentOf {name ws : List String} (h : ws <:+: name) (length length' : Nat) :
    Paired ParseError.Alike (Segment.Respelled name) (segmentOf .camel length ws)
      (segmentOf .snake length' ws) := by
  unfold segmentOf
  split
  · exact .error (.emptySegment length length')
  · dsimp only
    generalize hfield : ws.take (ws.length - (trailingPhrase ws).1.length) = field
    have hname : field <:+: name := hfield ▸ (List.take_prefix _ ws).isInfix.trans h
    split
    · exact .error (.missingField _)
    · rename_i hne
      exact .ok ⟨rfl, field, fun heq => hne (List.isEmpty_iff.2 heq), hname, rfl, rfl⟩

theorem paired_planOf {name ws : List String} (h : ws <:+: name) (verb : String)
    (length length' : Nat) :
    Paired ParseError.Alike (Plan.Respelled name) (planOf .camel length verb ws)
      (planOf .snake length' verb ws) := by
  unfold planOf
  cases verbs.lookup verb with
  | none => exact .error (.unknownVerb verb)
  | some subject =>
    dsimp only
    cases hby : ws.dropWhile (· != "by") with
    | nil => exact .error .missingBy
    | cons by_ predicate =>
      dsimp only
      split
      · exact .error (.emptySegment length length')
      · have hpredicate : predicate <:+: name := by
          have hsuffix : by_ :: predicate <:+ ws := hby ▸ List.dropWhile_suffix _
          exact ((List.suffix_cons by_ predicate).trans hsuffix).isInfix.trans h
        refine Paired.bind (paired_mapM fun group hgroup => paired_mapM fun words hwords => ?_)
          fun disjuncts disjuncts' hdisjuncts => .ok ⟨rfl, hdisjuncts⟩
        have hwords := (infix_of_mem_splitOn hwords).trans (infix_of_mem_splitOn hgroup)
        exact paired_segmentOf (hwords.trans hpredicate) length length'

theorem paired_parse {w : String} {r : List String} (hw : isPlainWord w)
    (hr : ∀ v ∈ r, isPlainWord v) :
    Paired ParseError.Alike (Plan.Respelled (w :: r)) (parse (spell .camel (w :: r)))
      (parse (spell .snake (w :: r))) := by
  rw [parse_spell .camel hw hr, parse_spell .snake hw hr]
  exact paired_planOf (List.suffix_cons w r).isInfix w _ _

end Name

open Name

/-! ## Origins -/

/-- Origins of one kind with the same primitive, the same text, or a plan in either style. -/
inductive Origin.Respelled (name : List String) : Origin → Origin → Prop
  | builtin (op : Primitive) : Respelled name (.builtin op) (.builtin op)
  | literal (query : String) : Respelled name (.literal query) (.literal query)
  | derived {plan plan' : Plan} : plan.Respelled name plan' →
      Respelled name (.derived plan) (.derived plan')

/-- Errors of one kind, each about the method that is named in its own style. -/
inductive DeclarationError.Respelled (name : List String) :
    DeclarationError → DeclarationError → Prop
  | unrecognized {cause cause' : ParseError} : cause.Alike cause' →
      Respelled name (.unrecognized (spell .camel name) cause)
        (.unrecognized (spell .snake name) cause')
  | shapeMismatch (subject : Subject) (declared : ReturnShape) :
      Respelled name (.shapeMismatch (spell .camel name) subject declared)
        (.shapeMismatch (spell .snake name) subject declared)

namespace Method

/-- The method under the name that the words spell. -/
def named (m : Method) (style : Style) (words : List String) : Method :=
  { m with name := spell style words }

/-- A primitive is known by the words of its name alone. -/
theorem primitive?_named (m : Method) (style : Style) {w : String} {r : List String}
    (hw : isPlainWord w) (hr : ∀ v ∈ r, isPlainWord v) :
    (m.named style (w :: r)).primitive? =
      Primitive.all.find? fun op => op.arity == m.parameters.length && op.words == w :: r := by
  obtain ⟨first, rest, hwords, hfirst, hrest⟩ := words_spell style hw hr
  have hfold : (first :: rest).map Word.folded = w :: r := by
    have hverb : first.folded = w := by rw [Word.folded, hfirst]; exact toLower_eq_self hw
    rw [List.map_cons, hverb, (plain_of_text hrest hr).1]
  unfold primitive? named
  simp only [hwords, hfold]

/-- Methods that differ only in the style of their name have queries of one origin, or none for one
reason. -/
theorem paired_origin (m : Method) {words : List String} (hne : words ≠ [])
    (hwords : ∀ w ∈ words, isPlainWord w) :
    Paired (DeclarationError.Respelled words) (Origin.Respelled words)
      (m.named .camel words).origin (m.named .snake words).origin := by
  obtain ⟨w, r, rfl⟩ := List.exists_cons_of_ne_nil hne
  obtain ⟨hw, hr⟩ := List.forall_mem_cons.1 hwords
  have hparse := paired_parse hw hr
  unfold origin
  rw [primitive?_named m .camel hw hr, primitive?_named m .snake hw hr]
  cases Primitive.all.find? _ with
  | some op => exact .ok (.builtin op)
  | none =>
    cases hquery : m.query with
    | some query => simp only [named, hquery]; exact .ok (.literal query)
    | none =>
      simp only [named, hquery]
      generalize parse (spell .camel (w :: r)) = camel at hparse ⊢
      generalize parse (spell .snake (w :: r)) = snake at hparse ⊢
      cases hparse with
      | error he => exact .error (.unrecognized he)
      | ok hplan =>
        dsimp only
        rw [hplan.subject]
        split
        · exact .ok (.derived hplan)
        · exact .error (.shapeMismatch _ _)

/-- The words of a query with two groups, the first on a field of two words. -/
def sampleWords : List String :=
  ["exists", "by", "first", "name", "in", "or", "zip2"]

theorem paired_origin_sample :
    sampleWords ≠ [] ∧ (∀ w ∈ sampleWords, isPlainWord w) ∧
      Paired (DeclarationError.Respelled sampleWords) (Origin.Respelled sampleWords)
        (origin { name := "existsByFirstNameInOrZip2", returns := .existence })
        (origin { name := "exists_by_first_name_in_or_zip2", returns := .existence }) := by
  have hne : sampleWords ≠ [] := nofun
  have hwords : ∀ w ∈ sampleWords, isPlainWord w := by decide
  exact ⟨hne, hwords, paired_origin { name := "", returns := .existence } hne hwords⟩

end Method

end QueryMethods
