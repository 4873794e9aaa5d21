import WordLogic.Condition.Evaluation
import WordLogic.Log
import WordLogic.RuleSet

/-!
# Matching

The rules of a set are checked in order until a sentence satisfies one. `RuleSet.verdict` gives the
verdict, `RuleSet.report` also what became of every rule that was checked. Both note each rule that
the sentence fails; only the first notes the match.
-/

namespace WordLogic

/-- What became of a rule that was checked: it matched, or it did not for a reason. -/
structure Check where
  rule : Int32
  priority : Int32
  reason : Option Reason
deriving Repr, DecidableEq

/-- The rule matched. -/
def Check.passed (o : Check) : Bool := o.reason.isNone

/-- The verdict on a sentence and the rules that were checked for it, in order. -/
structure Report where
  verdict : Option Verdict
  checks : List Check
deriving Repr, DecidableEq

namespace Report

/-- The rules that were checked and did not match. -/
def failed (r : Report) : List Int32 := (r.checks.filter (!·.passed)).map (·.rule)

/-- What a report says of a rule: nothing if it matched. -/
def against (c : Check) : String :=
  match c.reason with
  | none => ""
  | some reason => ", rule " ++ toString c.rule ++ ": " ++ reason.message

/-- The report in words: the verdict, then the reasons against the rules before it. -/
def message (r : Report) : String :=
  "verdict: " ++ (r.verdict.map Verdict.message).getD "no match" ++
    String.join (r.checks.map against)

end Report

namespace RuleSet

/-- The verdict of the first entry that the sentence satisfies. -/
def firstMatch (s : Sentence) : List Entry → Except Fault (Logged (Option Verdict))
  | [] => .ok ⟨none, []⟩
  | e :: es =>
    match e.condition.outcome e.condition.root s with
    | .error f => .error f
    | .ok .holds => .ok ⟨some e.rule.verdict, [.matched e.rule.id]⟩
    | .ok (.fails unmet) =>
      match firstMatch s es with
      | .error f => .error f
      | .ok ⟨v, log⟩ => .ok ⟨v, .unmatched e.rule.id unmet.reason :: log⟩

/-- The verdict of the first rule that the sentence satisfies, or none. -/
def verdict (rs : RuleSet) (s : Sentence) : Except Fault (Logged (Option Verdict)) :=
  firstMatch s rs.entries

/-- The report on the entries up to the first that the sentence satisfies. -/
def reportOn (s : Sentence) : List Entry → Except Fault (Logged Report)
  | [] => .ok ⟨⟨none, []⟩, []⟩
  | e :: es =>
    match e.condition.reason? s with
    | .error f => .error f
    | .ok none =>
      .ok ⟨⟨some e.rule.verdict, [⟨e.rule.id, e.rule.priority, none⟩]⟩, []⟩
    | .ok (some reason) =>
      match reportOn s es with
      | .error f => .error f
      | .ok ⟨r, log⟩ =>
        .ok ⟨⟨r.verdict, ⟨e.rule.id, e.rule.priority, some reason⟩ :: r.checks⟩,
          .unmatched e.rule.id reason :: log⟩

/-- The report on a sentence. -/
def report (rs : RuleSet) (s : Sentence) : Except Fault (Logged Report) :=
  reportOn s rs.entries

end RuleSet

end WordLogic
