import WordLogic.Log
import WordLogic.RuleSet

/-!
# Building a rule set

`RuleSet.build` turns a list of rules into a set. Identifiers are checked first, then the texts in
the order of the list, and the first fault ends the work; the rules are put into the order of
checking last, so neither fault depends on priorities.
-/

namespace WordLogic

/-- Why rules do not make a set. -/
inductive BuildError
  | badText (rule : Int32) (cause : TextError)
  | repeatedId (rule : Int32)
deriving Repr, DecidableEq

/-- The wording of the fault. -/
def BuildError.message : BuildError → String
  | .badText rule cause => "rule " ++ toString rule ++ ": " ++ cause.message
  | .repeatedId rule => "duplicate rule identifier " ++ toString rule

namespace RuleSet

/-- The first identifier that is among `seen` or occurs a second time. -/
def firstRepeated? (seen : List Int32) : List Rule → Option Int32
  | [] => none
  | r :: rs => if r.id ∈ seen then some r.id else firstRepeated? (r.id :: seen) rs

/-- The rules with their conditions, or the first rule whose text is none. -/
def readEntries : List Rule → Except (Int32 × TextError) (List Entry)
  | [] => .ok []
  | r :: rs =>
    match r.condition with
    | .error e => .error (r.id, e)
    | .ok c =>
      match readEntries rs with
      | .error e => .error e
      | .ok es => .ok (⟨r, c⟩ :: es)

/-- The entries by ascending priority; those of one priority keep their order. -/
def sortEntries (entries : List Entry) : List Entry :=
  entries.mergeSort fun a b => a.rule.atMost b.rule

/-- The set of the given rules. A text that is no condition is noted. -/
def build (rules : List Rule) : Logged (Except BuildError RuleSet) :=
  match firstRepeated? [] rules with
  | some id => ⟨.error (.repeatedId id), []⟩
  | none =>
    match readEntries rules with
    | .error (id, e) => ⟨.error (.badText id e), [.rejected id e]⟩
    | .ok entries => ⟨.ok ⟨sortEntries entries, none⟩, []⟩

end RuleSet

end WordLogic
