import WordLogic.Condition.Reading

/-!
# Rules

A rule is a text with an identifier and a priority. Rules are ordered by priority alone, the lowest
first, so two rules of one priority count as equal whatever else they say.
-/

namespace WordLogic

/-- A text with an identifier and a priority. -/
structure Rule where
  id : Int32
  priority : Int32
  text : String
deriving Repr, DecidableEq

/-- The rule that a sentence was found to satisfy. -/
structure Verdict where
  rule : Int32
  priority : Int32
deriving Repr, DecidableEq

namespace Rule

/-- How two rules stand to each other: their priorities decide. -/
def compare (a b : Rule) : Ordering := Ord.compare a.priority b.priority

/-- Neither rule goes before the other. -/
def sameRank (a b : Rule) : Bool := a.priority == b.priority

/-- The first rule may stand before the second. -/
def atMost (a b : Rule) : Bool := a.priority ≤ b.priority

theorem atMost_trans (a b c : Rule) (hab : atMost a b) (hbc : atMost b c) : atMost a c := by
  simp only [atMost, decide_eq_true_eq] at *
  exact Int32.le_trans hab hbc

/-- Of two rules, one may stand before the other. -/
theorem atMost_total (a b : Rule) : atMost a b || atMost b a := by
  simp only [atMost, Bool.or_eq_true, decide_eq_true_eq]
  exact Int32.le_total a.priority b.priority

/-- The rules by ascending priority; those of one priority keep their order. -/
def sort (rules : List Rule) : List Rule := rules.mergeSort atMost

/-- The condition that the rule's text describes. -/
def condition (r : Rule) : Except TextError Condition := Condition.ofText r.text

/-- The verdict for this rule. -/
def verdict (r : Rule) : Verdict := ⟨r.id, r.priority⟩

end Rule

/-- The wording of a verdict. -/
def Verdict.message (v : Verdict) : String :=
  "rule " ++ toString v.rule ++ " (priority " ++ toString v.priority ++ ")"

end WordLogic
