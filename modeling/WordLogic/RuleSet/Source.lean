import WordLogic.Error
import WordLogic.RuleFile.Reading
import WordLogic.RuleSet.Match

/-!
# From source to answer

The short ways through the library: a rule text or a rule against one sentence, a list of rules
against one sentence without building a set, and the text of a rule file as a set.
-/

namespace WordLogic

/-- The sentence satisfies the rule text. -/
def satisfies (sentence text : String) : Except Error Bool :=
  match Condition.ofText text with
  | .error e => .error (.text e)
  | .ok c => (c.holds (Sentence.ofText sentence)).mapError .fault

/-- The sentence satisfies the rule. -/
def Rule.satisfiedBy (r : Rule) (sentence : String) : Except Error Bool :=
  satisfies sentence r.text

namespace Rule

/-- The verdict of the first rule that the sentence satisfies, in the order of the list. The texts
after that rule are not read; one before it that is no condition ends the search and is noted. -/
def firstSatisfiedIn (s : Sentence) : List Rule → Logged (Except Error (Option Verdict))
  | [] => ⟨.ok none, []⟩
  | r :: rs =>
    match r.condition with
    | .error e => ⟨.error (.build (.badText r.id e)), [.rejected r.id e]⟩
    | .ok c =>
      match c.holds s with
      | .error f => ⟨.error (.fault f), []⟩
      | .ok true => ⟨.ok (some r.verdict), []⟩
      | .ok false => firstSatisfiedIn s rs

/-- The verdict of the first rule that the sentence satisfies, by ascending priority. -/
def firstSatisfied (rules : List Rule) (sentence : String) :
    Logged (Except Error (Option Verdict)) :=
  firstSatisfiedIn (Sentence.ofText sentence) (sort rules)

end Rule

namespace RuleSet

/-- The set of the rules in the text of a rule file. -/
def ofSource (text : String) : Logged (Except Error RuleSet) :=
  match RuleFile.read text with
  | .error e => ⟨.error (.ruleFile e), []⟩
  | .ok rules =>
    let built := build rules
    ⟨built.value.mapError .build, built.log⟩

end RuleSet

end WordLogic
