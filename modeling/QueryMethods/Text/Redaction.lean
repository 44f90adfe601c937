/-
Redaction of query texts: each quoted literal, in single or double quotes, gives way to `'?'`. In a
literal a backslash covers the next character, which may be anything but a line feed; a quote that
opens no literal stays.
-/
namespace QueryMethods.Text

/-- What follows the quote that closes a literal, given the text after its opening quote. -/
def afterLiteral? (quote : Char) : List Char → Option (List Char)
  | [] => none
  | ['\\'] => none
  | '\\' :: c :: r => if c = '\n' then none else afterLiteral? quote r
  | c :: r => if c = quote then some r else afterLiteral? quote r

theorem length_of_afterLiteral? {quote : Char} {s r : List Char}
    (h : afterLiteral? quote s = some r) : r.length < s.length := by
  fun_induction afterLiteral? quote s with
  | case1 | case2 => simp at h
  | case3 => simp at h
  | case4 c s _ ih => have := ih h; simp only [List.length_cons]; omega
  | case5 => simp only [Option.some.injEq] at h; subst h; simp
  | case6 c s _ _ _ ih => have := ih h; simp only [List.length_cons]; omega

/-- Replaces the literals from left to right. -/
def redactChars : List Char → List Char
  | [] => []
  | c :: r =>
    if c = '\'' ∨ c = '"' then
      match _h : afterLiteral? c r with
      | some rest => '\'' :: '?' :: '\'' :: redactChars rest
      | none => c :: redactChars r
    else c :: redactChars r
termination_by s => s.length
decreasing_by
  · have := length_of_afterLiteral? _h; simp only [List.length_cons]; omega
  all_goals simp

/-- A query text without its quoted literals. -/
def redact (query : String) : String :=
  String.ofList (redactChars query.toList)

end QueryMethods.Text
