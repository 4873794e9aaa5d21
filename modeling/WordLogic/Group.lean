import WordLogic.Literal

/-!
# Groups

A group is a row of literals: what stands between two parentheses of a rule text, or the whole of
it. The literals fall into clauses, all of which must hold. A literal with the connective `and` is a
clause of its own; a longest run of literals with the connective `or` is one clause, which holds
when one of them does.
-/

namespace WordLogic

/-- One demand of a group. -/
inductive Clause
  | single (literal : Literal)
  | anyOf (literals : List Literal)
deriving Repr, DecidableEq

namespace Clause

/-- The literals of a clause. -/
def literals : Clause → List Literal
  | .single l => [l]
  | .anyOf ls => ls

/-- The demands of a row of literals: neighbours with the connective `or` are one clause. -/
def ofLiterals : List Literal → List Clause
  | [] => []
  | l :: ls =>
    match l.connective, ofLiterals ls with
    | .and, cs => .single l :: cs
    | .or, .anyOf ms :: cs => .anyOf (l :: ms) :: cs
    | .or, cs => .anyOf [l] :: cs

/-- The clause in rule syntax: alternatives are joined by bars. -/
def render (c : Clause) : String := " | ".intercalate (c.literals.map Literal.render)

/-- Taken one after the other, the clauses of a row are the row. -/
theorem flatMap_literals_ofLiterals (ls : List Literal) :
    (ofLiterals ls).flatMap literals = ls := by
  induction ls with
  | nil => rfl
  | cons l ls ih =>
    unfold ofLiterals
    split <;> simp_all [literals]

end Clause

/-- A row of literals. -/
structure Group where
  literals : List Literal
deriving Repr, DecidableEq

namespace Group

/-- The demands of the group, from left to right. -/
def clauses (g : Group) : List Clause := Clause.ofLiterals g.literals

/-- The group in rule syntax. -/
def render (g : Group) : String := " ".intercalate (g.clauses.map Clause.render)

end Group

end WordLogic
