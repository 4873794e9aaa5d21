import WordLogic.Group

/-!
# Reasons

Why a condition does not hold. `Unmet` is the place where evaluation stopped and what stands there;
`Reason` is what a reader is told about it.
-/

namespace WordLogic

/-- The demand that failed first: where it stands and what it is. -/
inductive Unmet
  /-- The literal at `position` in group `group`. -/
  | literal (group position : Nat) (literal : Literal)
  /-- The run of alternatives that begins at `position` in group `group`. -/
  | run (group position : Nat) (literals : List Literal)
deriving Repr, DecidableEq

/-- Why a condition does not hold for a sentence. -/
inductive Reason
  | wordAbsent (word : String)
  | wordPresent (word : String)
  /-- A negated group holds. -/
  | groupHolds (index : Nat)
  /-- None of the alternatives holds, which are given in rule syntax. -/
  | noAlternative (literals : List String)
deriving Repr, DecidableEq

/-- The reason that an unmet demand gives. -/
def Unmet.reason : Unmet → Reason
  | .literal _ _ ⟨_, negated, .word w⟩ => if negated then .wordPresent w else .wordAbsent w
  | .literal _ _ ⟨_, _, .group k⟩ => .groupHolds k
  | .run _ _ literals => .noAlternative (literals.map Literal.render)

/-- The wording of the reason. -/
def Reason.message : Reason → String
  | .wordAbsent w => "word " ++ w ++ " not present"
  | .wordPresent w => "word " ++ w ++ " present"
  | .groupHolds k => "negated group #" ++ toString k ++ " matched"
  | .noAlternative literals => "none of [" ++ " | ".intercalate literals ++ "] matched"

end WordLogic
