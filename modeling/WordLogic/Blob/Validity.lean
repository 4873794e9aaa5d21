import WordLogic.Blob.Payload

/-!
# Validity of a payload

A payload that can be read may still hold what no rule set holds. `Payload.check` goes through it
and names the first such thing: counts that do not fit, an identifier that occurs twice, a condition
that is not well formed, or a priority that goes down.
-/

namespace WordLogic.Blob

/-- What is wrong with a payload. -/
inductive Invalid
  /-- The counts stated and the counts found, of rules and of groups. -/
  | counts (rules groups rulesFound groupsFound : Nat)
  | repeatedRule (rule : Int32)
  /-- The root of a rule's condition is none of its groups. -/
  | missingRoot (rule : Int32) (root groups : Nat)
  | emptyGroup (rule : Int32) (group : Nat)
  /-- A group refers to itself or to a later group. -/
  | forwardReference (rule : Int32) (group target : Nat)
  /-- A word is empty or not in uppercase. -/
  | badWord (rule : Int32) (word : String)
  /-- A rule stands behind one of higher priority number. -/
  | outOfOrder (rule priority before beforePriority : Int32)
deriving Repr, DecidableEq

/-- The wording of what is wrong. -/
def Invalid.message : Invalid → String
  | .counts rules groups rulesFound groupsFound =>
    "header counts " ++ toString rules ++ " rules / " ++ toString groups ++
      " nodes, payload holds " ++ toString rulesFound ++ " / " ++ toString groupsFound
  | .repeatedRule rule => "rule " ++ toString rule ++ " appears twice"
  | .missingRoot rule root groups =>
    "rule " ++ toString rule ++ ": root #" ++ toString root ++ " but only " ++ toString groups ++
      " nodes"
  | .emptyGroup rule group =>
    "rule " ++ toString rule ++ ": node #" ++ toString group ++ " is empty"
  | .forwardReference rule group target =>
    "rule " ++ toString rule ++ ": node #" ++ toString group ++ " refers forward to #" ++
      toString target
  | .badWord rule word => "rule " ++ toString rule ++ ": bad word '" ++ word ++ "'"
  | .outOfOrder rule priority before beforePriority =>
    "rule " ++ toString rule ++ " (priority " ++ toString priority ++ ") stored after rule " ++
      toString before ++ " (priority " ++ toString beforePriority ++ ")"

/-- What is wrong with an atom of group `index`. -/
def checkAtom (rule : Int32) (index : Nat) : Atom → Except Invalid Unit
  | .word w =>
    if w = "" ∨ w ≠ Text.uppercase w then .error (.badWord rule w) else .ok ()
  | .group k => if index ≤ k then .error (.forwardReference rule index k) else .ok ()

/-- What is wrong with a group at `index`. -/
def checkGroup (rule : Int32) (index : Nat) (g : Group) : Except Invalid Unit :=
  if g.literals = [] then .error (.emptyGroup rule index)
  else g.literals.forM fun l => checkAtom rule index l.atom

/-- What is wrong with groups that stand behind `index` others. -/
def checkGroups (rule : Int32) : (index : Nat) → List Group → Except Invalid Unit
  | _, [] => .ok ()
  | index, g :: gs =>
    match checkGroup rule index g with
    | .error e => .error e
    | .ok () => checkGroups rule (index + 1) gs

/-- What is wrong with a rule's condition. -/
def checkCondition (rule : Int32) (c : Condition) : Except Invalid Unit :=
  if c.groups.length ≤ c.root then .error (.missingRoot rule c.root c.groups.length)
  else checkGroups rule 0 c.groups

/-- What is wrong with entries taken one by one, when the identifiers in `seen` are taken. -/
def checkEntries (seen : List Int32) : List Entry → Except Invalid Unit
  | [] => .ok ()
  | e :: es =>
    if e.rule.id ∈ seen then .error (.repeatedRule e.rule.id)
    else match checkCondition e.rule.id e.condition with
      | .error e => .error e
      | .ok () => checkEntries (e.rule.id :: seen) es

/-- The first entry with a lower priority than the one before it. -/
def checkOrder : List Entry → Except Invalid Unit
  | a :: b :: es =>
    if b.rule.priority < a.rule.priority then
      .error (.outOfOrder b.rule.id b.rule.priority a.rule.id a.rule.priority)
    else checkOrder (b :: es)
  | _ => .ok ()

namespace Payload

/-- The counts of the payload are right. -/
def checkCounts (p : Payload) : Except Invalid Unit :=
  let groups := (RuleSet.mk p.entries p.sourceDigest).groupCount
  if p.ruleCount = p.entries.length ∧ p.groupCount = groups then .ok ()
  else .error (.counts p.ruleCount p.groupCount p.entries.length groups)

/-- What is wrong with the payload. -/
def check (p : Payload) : Except Invalid Unit := do
  p.checkCounts
  checkEntries [] p.entries
  checkOrder p.entries

end Payload

end WordLogic.Blob
