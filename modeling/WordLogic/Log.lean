import WordLogic.Condition.Reason
import WordLogic.TextError

/-!
# Log records

What the library notes while it works: rules that it refuses, rules that a sentence fails, and the
rule that it satisfies. A `Logged` value carries the records made on the way to it, in order.
-/

namespace WordLogic

/-- How much is wanted of a log. -/
inductive LogLevel
  | debug
  | trace
deriving Repr, DecidableEq

/-- Something worth noting. -/
inductive LogRecord
  /-- The text of a rule is no condition. -/
  | rejected (rule : Int32) (cause : TextError)
  /-- A sentence does not satisfy a rule. -/
  | unmatched (rule : Int32) (reason : Reason)
  /-- A sentence satisfies a rule. -/
  | matched (rule : Int32)
deriving Repr, DecidableEq

namespace LogRecord

/-- The level of detail that a record belongs to. -/
def level : LogRecord → LogLevel
  | .rejected .. => .debug
  | .unmatched .. => .debug
  | .matched .. => .trace

/-- The wording of a record. -/
def message : LogRecord → String
  | .rejected rule cause => "rejecting rule " ++ toString rule ++ ": " ++ cause.message
  | .unmatched rule reason =>
    "sentence does not match rule " ++ toString rule ++ ": " ++ reason.message
  | .matched rule => "rule " ++ toString rule ++ " matched"

/-- The record is shown in a log of the given detail. -/
def shownAt (detail : LogLevel) (r : LogRecord) : Bool :=
  match detail, r.level with
  | .debug, .trace => false
  | _, _ => true

end LogRecord

/-- A value and the records made on the way to it, the first one first. -/
structure Logged (α : Type) where
  value : α
  log : List LogRecord
deriving Repr, DecidableEq

end WordLogic
