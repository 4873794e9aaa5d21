import WordLogic.Condition
import WordLogic.Condition.Reason
import WordLogic.Sentence

/-!
# Evaluating a condition

`Condition.settle` finds out what a group comes to for a sentence. It tests the clauses of the group
from left to right and stops at the first that fails; in a run of alternatives it stops at the first
that holds. What a group comes to is kept, so that further references to it are answered without
testing it again. The `Trail` says what is known and lists the steps that were taken.

A reference must point to an earlier group, which is checked when it is followed. So every
evaluation ends: with an `Outcome`, or with a `Fault` when the condition is not well formed.
-/

namespace WordLogic

/-- Why a condition cannot be evaluated. -/
inductive Fault
  /-- There is no group with this index. -/
  | noSuchGroup (index : Nat)
  /-- A group refers to itself or to a later group. -/
  | forwardReference (group target : Nat)
deriving Repr, DecidableEq

/-- The wording of the fault. -/
def Fault.message : Fault → String
  | .noSuchGroup k => "no node #" ++ toString k
  | .forwardReference k t => "node #" ++ toString k ++ " refers forward to #" ++ toString t

/-- What a demand comes to. -/
inductive Outcome
  | holds
  | fails (unmet : Unmet)
deriving Repr, DecidableEq

/-- The demand holds. -/
def Outcome.isHolds : Outcome → Bool
  | .holds => true
  | .fails _ => false

/-- A step of an evaluation. -/
inductive Step
  /-- The clauses of a group are begun. -/
  | enter (group : Nat)
  /-- The literal at a position is tested. -/
  | test (group position : Nat)
  /-- What the group comes to is kept. -/
  | keep (group : Nat)
deriving Repr, DecidableEq

/-- What is known of each group so far, and the steps that were taken, the last one first. -/
structure Trail where
  known : Array (Option Outcome)
  steps : List Step
deriving Repr, DecidableEq

namespace Trail

/-- Nothing is known of the groups of a condition with `size` of them. -/
def start (size : Nat) : Trail := ⟨Array.replicate size none, []⟩

/-- Notes a step. -/
def note (trail : Trail) (s : Step) : Trail := { trail with steps := s :: trail.steps }

/-- Keeps what a group comes to. -/
def keep (trail : Trail) (group : Nat) (o : Outcome) : Trail :=
  ⟨trail.known.setIfInBounds group (some o), .keep group :: trail.steps⟩

end Trail

/-- An answer with the trail that led to it. -/
abbrev Trailed (α : Type) := Except Fault (α × Trail)

namespace Condition

/-- What a literal comes to whose group comes to `o`. -/
def ofGroup (group position : Nat) (l : Literal) : Outcome → Outcome
  | .holds => if l.negated then .fails (.literal group position l) else .holds
  | .fails unmet => if l.negated then .holds else .fails unmet

section Clauses

variable (s : Sentence) (group : Nat) (settle : (k : Nat) → k < group → Trail → Trailed Outcome)

/-- Tests the literal at a position of `group`. -/
def testLiteral (position : Nat) (l : Literal) (trail : Trail) : Trailed Outcome :=
  let trail := trail.note (.test group position)
  match l.atom with
  | .word word =>
    .ok (if s.contains word != l.negated then .holds else .fails (.literal group position l), trail)
  | .group k =>
    if h : k < group then
      match settle k h trail with
      | .error e => .error e
      | .ok (o, trail) => .ok (ofGroup group position l o, trail)
    else .error (.forwardReference group k)

/-- Whether one of the literals from a position on holds. Those after it are not tested. -/
def testAny : (position : Nat) → List Literal → Trail → Trailed Bool
  | _, [], trail => .ok (false, trail)
  | position, l :: ls, trail =>
    match testLiteral s group settle position l trail with
    | .error e => .error e
    | .ok (.holds, trail) => .ok (true, trail)
    | .ok (.fails _, trail) => testAny (position + 1) ls trail

/-- Tests the clauses from a position on, up to the first that fails. -/
def testClauses : (position : Nat) → List Clause → Trail → Trailed Outcome
  | _, [], trail => .ok (.holds, trail)
  | position, .single l :: cs, trail =>
    match testLiteral s group settle position l trail with
    | .error e => .error e
    | .ok (.holds, trail) => testClauses (position + 1) cs trail
    | .ok (.fails unmet, trail) => .ok (.fails unmet, trail)
  | position, .anyOf ls :: cs, trail =>
    match testAny s group settle position ls trail with
    | .error e => .error e
    | .ok (true, trail) => testClauses (position + ls.length) cs trail
    | .ok (false, trail) => .ok (.fails (.run group position ls), trail)

end Clauses

/-- What a group comes to: what is known of it, or else what its clauses come to, which is kept. -/
def settle (groups : List Group) (s : Sentence) (index : Nat) (trail : Trail) : Trailed Outcome :=
  match trail.known[index]?, groups[index]? with
  | some (some o), _ => .ok (o, trail)
  | some none, some g =>
    let begun := trail.note (.enter index)
    match testClauses s index (fun k _ => settle groups s k) 0 g.clauses begun with
    | .error e => .error e
    | .ok (o, trail) => .ok (o, trail.keep index o)
  | _, _ => .error (.noSuchGroup index)
termination_by index

/-- What the group with an index comes to, and the trail that led there. -/
def settled (c : Condition) (index : Nat) (s : Sentence) : Trailed Outcome :=
  settle c.groups s index (Trail.start c.groups.length)

/-- What the group with an index comes to. -/
def outcome (c : Condition) (index : Nat) (s : Sentence) : Except Fault Outcome :=
  (c.settled index s).map (·.1)

/-- The group with an index holds. -/
def groupHolds (c : Condition) (index : Nat) (s : Sentence) : Except Fault Bool :=
  (c.outcome index s).map (·.isHolds)

/-- The condition holds. -/
def holds (c : Condition) (s : Sentence) : Except Fault Bool := c.groupHolds c.root s

/-- Why the condition does not hold, or `none` when it does. -/
def reason? (c : Condition) (s : Sentence) : Except Fault (Option Reason) :=
  (c.outcome c.root s).map fun
    | .holds => none
    | .fails unmet => some unmet.reason

end Condition

end WordLogic
