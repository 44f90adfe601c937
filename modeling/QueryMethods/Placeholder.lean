/-
Placeholder names: identifiers made from field names, each handed out once. A name that is taken
gets the least number from one up that makes it free.
-/
namespace QueryMethods.Placeholder

/-- The identifier nearest to a name: all but ASCII letters and digits become underscores, and a
letter goes in front where the result would be empty or start with a digit. -/
def identifier (name : String) : String :=
  let body := name.toList.map fun c => if c.isAlphanum then c else '_'
  String.ofList (if body.head?.all Char.isDigit then 'p' :: body else body)

/-- A name with a number after an underscore. -/
def numbered (base : String) (n : Nat) : String :=
  base ++ "_" ++ toString n

/-- The least number from `n` up whose numbered name is not taken. A name that was passed over is
not looked at again, so the search is over when all taken names are gone. -/
def firstFree (base : String) (taken : List String) (n : Nat) : Nat :=
  if _h : numbered base n ∈ taken then firstFree base (taken.erase (numbered base n)) (n + 1)
  else n
termination_by taken.length
decreasing_by
  have := List.length_pos_of_mem _h
  rw [List.length_erase_of_mem _h]
  omega

/-- The identifier for a name when others are taken. -/
def fresh (taken : List String) (name : String) : String :=
  let base := identifier name
  if base ∈ taken then numbered base (firstFree base taken 1) else base

/-- Hands out identifiers for names one after the other, given those handed out before, in order. -/
def assign (taken : List String) : List String → List String
  | [] => []
  | name :: r => fresh taken name :: assign (taken ++ [fresh taken name]) r

end QueryMethods.Placeholder
