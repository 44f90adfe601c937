/-
Padding of texts to a width.
-/
namespace QueryMethods.Text

/-- A text with as many of the character in front of it as bring it to the width. -/
def padStart (c : Char) (width : Nat) (s : String) : String :=
  String.ofList (List.replicate (width - s.length) c) ++ s

end QueryMethods.Text
