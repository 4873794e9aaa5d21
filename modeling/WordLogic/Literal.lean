import WordLogic.Text.Casing

/-!
# Literals

A literal is one test on a sentence: that a word occurs in it, or that another group of the same
condition holds, either of them possibly negated. Its connective says whether the literal is a
demand of its own or one of several alternatives.
-/

namespace WordLogic

/-- How a literal stands in its group: `and` for a demand of its own, `or` for an alternative. -/
inductive Connective
  | and
  | or
deriving Repr, DecidableEq

/-- What a literal tests: a word, in uppercase, or the group with an index. -/
inductive Atom
  | word (word : String)
  | group (index : Nat)
deriving Repr, DecidableEq

/-- One test on a sentence. -/
structure Literal where
  connective : Connective
  negated : Bool
  atom : Atom
deriving Repr, DecidableEq

namespace Literal

/-- The test for a word. Case is dropped here, so that words compare as written. -/
def word (connective : Connective) (word : String) (negated : Bool) : Literal :=
  ⟨connective, negated, .word (Text.uppercase word)⟩

/-- The test of a group. -/
def group (connective : Connective) (index : Nat) (negated : Bool) : Literal :=
  ⟨connective, negated, .group index⟩

/-- The literal in rule syntax, without its connective: `&WORD` or `#2`, after `!` when negated. -/
def render (l : Literal) : String :=
  (if l.negated then "!" else "") ++
    match l.atom with
    | .word w => "&" ++ w
    | .group k => "#" ++ toString k

end Literal

end WordLogic
