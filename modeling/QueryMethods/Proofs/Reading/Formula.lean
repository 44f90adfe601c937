/-
Formulas and their reading. A formula is written in infix form: parentheses group, a negation takes
what is right after it, conjunctions take more than disjunctions. The reader goes over the lexemes
once, with a stack of the groups that are open; in each group it keeps the alternatives and the
factors that it has read.

What lexemes say is kept apart from how they are put: a run of lexemes is a factor if it may stand
in a conjunction, and a sum if it may stand in parentheses. Both are closed under the connectives.
-/
namespace QueryMethods

/-! ## Formulas -/

/-- Formulas with connectives of two operands, as they are read from a text. -/
inductive Formula (α : Type) where
  | atom (a : α)
  | and (l r : Formula α)
  | or (l r : Formula α)
  | not (f : Formula α)

namespace Formula

variable {α : Type}

/-- Whether a formula is true, given which atoms are. -/
def eval (holds : α → Bool) : Formula α → Bool
  | .atom a => holds a
  | .and l r => l.eval holds && r.eval holds
  | .or l r => l.eval holds || r.eval holds
  | .not f => !f.eval holds

end Formula

/-- The signs of a formula in infix form. -/
inductive Lexeme (α : Type) where
  | and | or | not | opening | closing
  | atom (a : α)

/-! ## Reading -/

/-- What has been read of a group: the alternatives before the last `or`, the factors after it and
before the last `and`, and how many times the next operand is negated. -/
structure Frame (α : Type) where
  alternatives : Option (Formula α) := none
  factors : Option (Formula α) := none
  negations : Nat := 0

namespace Frame

variable {α : Type}

/-- An operand with its negations. -/
def negated : Nat → Formula α → Formula α
  | 0, f => f
  | n + 1, f => .not (negated n f)

/-- The factors together with an operand. -/
def product (fr : Frame α) (x : Formula α) : Formula α :=
  match fr.factors with
  | none => negated fr.negations x
  | some f => .and f (negated fr.negations x)

/-- The whole group, given its last operand. -/
def sum (fr : Frame α) (x : Formula α) : Formula α :=
  match fr.alternatives with
  | none => fr.product x
  | some f => .or f (fr.product x)

end Frame

namespace Formula

variable {α : Type}

mutual

/-- Goes on where an operand is due. -/
def operand (stack : List (Frame α)) (fr : Frame α) : List (Lexeme α) → Option (Formula α)
  | .not :: r => operand stack { fr with negations := fr.negations + 1 } r
  | .opening :: r => operand (fr :: stack) {} r
  | .atom a :: r => operator stack fr (.atom a) r
  | _ => none

/-- Goes on after an operand. -/
def operator (stack : List (Frame α)) (fr : Frame α) (x : Formula α) :
    List (Lexeme α) → Option (Formula α)
  | .and :: r => operand stack ⟨fr.alternatives, some (fr.product x), 0⟩ r
  | .or :: r => operand stack ⟨some (fr.sum x), none, 0⟩ r
  | .closing :: r =>
    match stack with
    | [] => none
    | outer :: stack => operator stack outer (fr.sum x) r
  | [] => if stack.isEmpty then some (fr.sum x) else none
  | _ => none

end

/-- The formula that the lexemes are, if they are one. -/
def read (ls : List (Lexeme α)) : Option (Formula α) :=
  operand [] {} ls

/-! ## Runs of lexemes -/

/-- Lexemes that may stand in a conjunction: read where no negation is open, they add their truth to
that of the factors before them and leave the alternatives alone. -/
def IsFactor (ls : List (Lexeme α)) (truth : (α → Bool) → Bool) : Prop :=
  ∀ stack alternatives factors rest, ∃ fr x,
    operand stack ⟨alternatives, factors, 0⟩ (ls ++ rest) = operator stack fr x rest ∧
      fr.alternatives = alternatives ∧
        ∀ holds, (fr.product x).eval holds = (factors.elim true (eval holds) && truth holds)

/-- Lexemes that may stand in parentheses: read where a group or an alternative begins, they add
their truth to that of the alternatives before them. -/
def IsSum (ls : List (Lexeme α)) (truth : (α → Bool) → Bool) : Prop :=
  ∀ stack alternatives rest, ∃ fr x,
    operand stack ⟨alternatives, none, 0⟩ (ls ++ rest) = operator stack fr x rest ∧
      ∀ holds, (fr.sum x).eval holds = (alternatives.elim false (eval holds) || truth holds)

variable {ls ls' : List (Lexeme α)} {truth truth' : (α → Bool) → Bool}

theorem isFactor_atom (a : α) : IsFactor [.atom a] fun holds => holds a := by
  intro stack alternatives factors rest
  refine ⟨⟨alternatives, factors, 0⟩, .atom a, rfl, rfl, fun holds => ?_⟩
  cases factors <;> rfl

theorem eval_sum (fr : Frame α) (x : Formula α) (holds : α → Bool) :
    (fr.sum x).eval holds = (fr.alternatives.elim false (eval holds) || (fr.product x).eval holds) := by
  unfold Frame.sum
  cases fr.alternatives with
  | none => rfl
  | some f => rfl

theorem IsFactor.and (h : IsFactor ls truth) (h' : IsFactor ls' truth') :
    IsFactor (ls ++ .and :: ls') fun holds => truth holds && truth' holds := by
  intro stack alternatives factors rest
  -- What the first run leaves is the product with which the second begins.
  obtain ⟨fr, x, hread, halt, heval⟩ := h stack alternatives factors (.and :: ls' ++ rest)
  obtain ⟨fr', x', hread', halt', heval'⟩ := h' stack alternatives (some (fr.product x)) rest
  refine ⟨fr', x', ?_, halt', fun holds => ?_⟩
  · rw [List.append_assoc, hread, List.cons_append, operator, halt, hread']
  · rw [heval', Option.elim_some, heval, Bool.and_assoc]

theorem IsFactor.isSum (h : IsFactor ls truth) : IsSum ls truth := by
  intro stack alternatives rest
  obtain ⟨fr, x, hread, halt, heval⟩ := h stack alternatives none rest
  refine ⟨fr, x, hread, fun holds => ?_⟩
  rw [eval_sum, halt, heval, Option.elim_none, Bool.true_and]

theorem IsSum.or (h : IsSum ls truth) (h' : IsSum ls' truth') :
    IsSum (ls ++ .or :: ls') fun holds => truth holds || truth' holds := by
  intro stack alternatives rest
  obtain ⟨fr, x, hread, heval⟩ := h stack alternatives (.or :: ls' ++ rest)
  obtain ⟨fr', x', hread', heval'⟩ := h' stack (some (fr.sum x)) rest
  refine ⟨fr', x', ?_, fun holds => ?_⟩
  · rw [List.append_assoc, hread, List.cons_append, operator, hread']
  · rw [heval', Option.elim_some, heval, Bool.or_assoc]

/-- What stands in parentheses is read as one operand, whatever the frame around it. -/
theorem IsSum.parentheses (h : IsSum ls truth) (stack : List (Frame α)) (fr : Frame α)
    (rest : List (Lexeme α)) :
    ∃ x, operand stack fr (.opening :: ls ++ .closing :: rest) = operator stack fr x rest ∧
      ∀ holds, x.eval holds = truth holds := by
  -- The frame around waits on the stack, with its negations, until the group is closed.
  obtain ⟨inner, x, hread, heval⟩ := h (fr :: stack) none (.closing :: rest)
  refine ⟨inner.sum x, ?_, fun holds => ?_⟩
  · rw [List.cons_append, operand, hread, operator]
  · rw [heval, Option.elim_none, Bool.false_or]

theorem IsSum.group (h : IsSum ls truth) : IsFactor (.opening :: ls ++ [.closing]) truth := by
  intro stack alternatives factors rest
  obtain ⟨x, hread, heval⟩ := h.parentheses stack ⟨alternatives, factors, 0⟩ rest
  refine ⟨⟨alternatives, factors, 0⟩, x, ?_, rfl, fun holds => ?_⟩
  · rw [List.append_assoc]; exact hread
  · rw [← heval]; cases factors <;> rfl

theorem IsSum.negation (h : IsSum ls truth) :
    IsFactor (.not :: .opening :: ls ++ [.closing]) fun holds => !truth holds := by
  intro stack alternatives factors rest
  obtain ⟨x, hread, heval⟩ := h.parentheses stack ⟨alternatives, factors, 1⟩ rest
  refine ⟨⟨alternatives, factors, 1⟩, x, ?_, rfl, fun holds => ?_⟩
  · rw [List.append_assoc, List.cons_append, operand]; exact hread
  · show _ = (_ && !truth holds)
    rw [← heval]
    cases factors <;> rfl

theorem IsSum.read (h : IsSum ls truth) :
    ∃ F, Formula.read ls = some F ∧ ∀ holds, F.eval holds = truth holds := by
  obtain ⟨fr, x, hread, heval⟩ := h [] none []
  refine ⟨fr.sum x, ?_, fun holds => ?_⟩
  · rw [List.append_nil] at hread
    rw [Formula.read, hread]
    rfl
  · rw [heval, Option.elim_none, Bool.false_or]

example : Formula.read [.not, .atom 1, .and, .atom 2, .or, .atom 3, .and, .opening, .atom 4, .or,
    .atom 5, .closing] =
      some (.or (.and (.not (.atom 1)) (.atom 2)) (.and (.atom 3) (.or (.atom 4) (.atom 5)))) := rfl

end Formula

end QueryMethods
