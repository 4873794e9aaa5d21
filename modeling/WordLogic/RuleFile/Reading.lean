import WordLogic.Rule
import WordLogic.RuleFile.Line
import WordLogic.RuleFile.FormatError

/-!
# Reading rule files

A rule file holds one rule to a line, `rule 4 (priority -2): &cat | &dog`, with blank lines and
comments between them. The annotation may be left out, which gives priority 0, and the text goes to
the end of the line. Texts are not looked into here.

A line that begins with the word `rule` and a space must go on as a rule. A text that does not begin
so ends the rules; nothing but blanks and comments may be left then.
-/

namespace WordLogic.RuleFile

/-- Where reading stopped, as the characters left, and what was expected. -/
structure Failure where
  rest : List Char
  expected : Option Expectation
deriving Repr, DecidableEq

/-- What follows `(priority` and its blanks, if an annotation begins here. -/
def annotation? (cs : List Char) : Option (List Char) :=
  match skipSpaces cs with
  | '(' :: r => (skipWord? "priority".toList (skipSpaces r)).bind skipSpaces?
  | _ => none

/-- The priority of a rule, 0 without an annotation, and what follows it. -/
def readPriority (cs : List Char) : Except Failure (Int32 × List Char) :=
  match annotation? cs with
  | none => .ok (0, cs)
  | some r =>
    match readInt32? r with
    | none => .error ⟨r, none⟩
    | some (priority, r) =>
      match skipSpaces r with
      | ')' :: r => .ok (priority, r)
      | r => .error ⟨r, none⟩

/-- The trimmed text of a rule, which is not empty, and what follows its line. -/
def readText (cs : List Char) : Except Failure (List Char × List Char) :=
  match restOfLine cs with
  | .error r => .error ⟨r, some .ruleText⟩
  | .ok (line, r) =>
    if Text.trim line = [] then .error ⟨cs, some .ruleText⟩ else .ok (Text.trim line, r)

/-- A rule after its first word, and what follows its line. -/
def readRule (cs : List Char) : Except Failure (Rule × List Char) :=
  match readInt32? cs with
  | none => .error ⟨cs, some .ruleId⟩
  | some (id, r) =>
    match readPriority r with
    | .error e => .error e
    | .ok (priority, r) =>
      match skipSpaces r with
      | ':' :: r =>
        match readText r with
        | .error e => .error e
        | .ok (text, r) => .ok (⟨id, priority, String.ofList text⟩, r)
      | r => .error ⟨r, none⟩

/-- What follows the word that begins a rule and its blanks, past the blanks and comments before
it. -/
def startRule? (cs : List Char) : Option (List Char) :=
  (skipWord? "rule".toList (skipGaps cs)).bind skipSpaces?

/-! ## What is left gets shorter -/

/-- An annotation begins with something. -/
theorem length_annotation? {cs r : List Char} (h : annotation? cs = some r) :
    r.length ≤ cs.length := by
  unfold annotation? at h
  split at h
  · rename_i r' hs
    obtain ⟨r₁, h₁, h₂⟩ := Option.bind_eq_some_iff.1 h
    have := length_skipSpaces cs
    have := length_skipSpaces r'
    have := congrArg List.length (eq_append_of_skipWord? h₁)
    have := length_skipSpaces? h₂
    rw [hs] at *
    simp only [List.length_cons, List.length_append] at *
    omega
  · cases h

/-- A priority is taken from the start. -/
theorem length_readPriority {cs r : List Char} {p : Int32} (h : readPriority cs = .ok (p, r)) :
    r.length ≤ cs.length := by
  unfold readPriority at h
  split at h
  · cases h
    exact Nat.le_refl _
  · rename_i r₁ h₁
    split at h
    · cases h
    · rename_i r₂ h₂
      split at h
      · rename_i r₃ h₃
        cases h
        have := length_annotation? h₁
        have := length_readInt32? h₂
        have := length_skipSpaces r₂
        rw [h₃] at this
        simp only [List.length_cons] at this
        omega
      · cases h

/-- A text is taken from the start. -/
theorem length_readText {cs text r : List Char} (h : readText cs = .ok (text, r)) :
    r.length ≤ cs.length := by
  unfold readText at h
  split at h
  · cases h
  · rename_i line r' hl
    split at h
    · cases h
    · cases h
      exact length_restOfLine hl

/-- A rule is taken from the start. -/
theorem length_readRule {cs r : List Char} {rule : Rule} (h : readRule cs = .ok (rule, r)) :
    r.length ≤ cs.length := by
  unfold readRule at h
  split at h
  · cases h
  · rename_i id r₁ h₁
    split at h
    · cases h
    · rename_i p r₂ h₂
      split at h
      · rename_i r₃ h₃
        split at h
        · cases h
        · rename_i text r₄ h₄
          cases h
          have := length_readInt32? h₁
          have := length_readPriority h₂
          have := length_skipSpaces r₂
          have := length_readText h₄
          rw [h₃] at *
          simp only [List.length_cons] at *
          omega
      · cases h

/-- The first word of a rule is not empty. -/
theorem length_startRule? {cs r : List Char} (h : startRule? cs = some r) :
    r.length < cs.length := by
  unfold startRule? at h
  obtain ⟨r₁, h₁, h₂⟩ := Option.bind_eq_some_iff.1 h
  have := length_skipGaps cs
  have := congrArg List.length (eq_append_of_skipWord? h₁)
  have := length_skipSpaces? h₂
  simp only [List.length_append] at *
  omega

/-! ## Whole files -/

/-- The rules at the start, and what follows the last of them. -/
def readRules (cs : List Char) : Except Failure (List Rule × List Char) :=
  match _h : startRule? cs with
  | none => .ok ([], cs)
  | some r =>
    match _h' : readRule r with
    | .error e => .error e
    | .ok (rule, r) =>
      match readRules r with
      | .error e => .error e
      | .ok (rules, r) => .ok (rule :: rules, r)
termination_by cs.length
decreasing_by
  have := length_startRule? ‹_›
  have := length_readRule ‹_›
  omega

/-- The rules of a file, all of which must be used up. -/
def readAll (cs : List Char) : Except Failure (List Rule) :=
  match readRules cs with
  | .error e => .error e
  | .ok (rules, r) =>
    match skipGaps r with
    | [] => .ok rules
    | r => .error ⟨r, none⟩

/-- The rules of a file in the order of their lines. -/
def read (text : String) : Except FormatError (List Rule) :=
  match readAll text.toList with
  | .ok rules => .ok rules
  | .error e => .error ⟨text.toList, text.toList.length - e.rest.length, e.expected⟩

end WordLogic.RuleFile
