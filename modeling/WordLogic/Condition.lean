import WordLogic.Group

/-!
# Conditions

A condition is a rule text made ready for evaluation: its groups in the order in which they close,
and the index of the group that decides, the root. The text as a whole is the last group. A literal
can refer only to a group before its own (`WellFormed`).
-/

namespace WordLogic

/-- Groups and the index of the deciding one. -/
structure Condition where
  groups : List Group
  root : Nat
deriving Repr, DecidableEq

/-- The atom fits into group `index` of a condition: a reference points to an earlier group, and a
word is in uppercase and not empty. -/
def Atom.Fits (index : Nat) : Atom → Prop
  | .word w => w ≠ "" ∧ Text.uppercase w = w
  | .group k => k < index

namespace Condition

/-- There is a root, no group is empty, and every atom fits. -/
structure WellFormed (c : Condition) : Prop where
  root_lt : c.root < c.groups.length
  literals_ne_nil : ∀ g ∈ c.groups, g.literals ≠ []
  fits : ∀ (i : Nat) (g : Group), c.groups[i]? = some g → ∀ l ∈ g.literals, l.atom.Fits i

/-- The groups one to a line, each after its index. -/
def render (c : Condition) : String :=
  "\n".intercalate (c.groups.mapIdx fun i g => "#" ++ toString i ++ ": " ++ g.render)

end Condition

end WordLogic
