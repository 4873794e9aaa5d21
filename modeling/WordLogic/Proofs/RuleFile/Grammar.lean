import Mathlib
import WordLogic.RuleFile.Reading
import WordLogic.Text.Segments

/-!
# The lines of a rule file

What a line of a rule file says, without regard to how it is read: nothing, if it is blank or a
comment, or a rule (`Line.Says`). A line that says neither is bad.

A `\r` directly before the `\n` that ends a line belongs to the line ending; the last line is not
ended, so a `\r` at its end does not.
-/

namespace WordLogic.RuleFile

/-! ## Lines -/

/-- The characters of a line, and whether a `\n` ends it. -/
structure Line where
  chars : List Char
  ended : Bool
deriving Repr, DecidableEq

/-- The pieces of a text as lines. Only the last one is not ended. -/
def Line.ofSegments : List (List Char) → List Line
  | [] => []
  | [cs] => [⟨cs, false⟩]
  | cs :: next :: rest => ⟨cs, true⟩ :: ofSegments (next :: rest)

/-- The lines of a text, which is cut at every `\n`. -/
def lines (text : List Char) : List Line := Line.ofSegments (Text.segments '\n' text)

/-- The number of characters before a line, the `\n` of each line before it included. -/
def lineStart (ls : List Line) (i : Nat) : Nat := ((ls.take i).map (·.chars.length + 1)).sum

/-! ## What a line says -/

/-- The characters are spaces and tabs. -/
def Spaces (cs : List Char) : Prop := ∀ c ∈ cs, isSpace c = true

instance (cs : List Char) : Decidable (Spaces cs) :=
  List.decidableBAll (isSpace · = true) cs

/-- The characters are decimal digits, at least one, and the first is not zero. -/
def NonzeroLed (cs : List Char) : Prop :=
  (∀ c ∈ cs, c.isDigit = true) ∧ ∃ d ds, cs = d :: ds ∧ d ≠ '0'

/-- The characters write a whole number: a single zero, or digits that do not begin with zero and
may have a sign. -/
inductive Numeral : List Char → Int → Prop
  | zero : Numeral ['0'] 0
  | unsigned {ds : List Char} (h : NonzeroLed ds) : Numeral ds (Nat.ofDigitChars 10 ds 0)
  | plus {ds : List Char} (h : NonzeroLed ds) : Numeral ('+' :: ds) (Nat.ofDigitChars 10 ds 0)
  | minus {ds : List Char} (h : NonzeroLed ds) : Numeral ('-' :: ds) (-Nat.ofDigitChars 10 ds 0)

/-- The annotation of a rule with a priority. Without one the priority is 0. -/
inductive PriorityPart : List Char → Int32 → Prop
  | absent : PriorityPart [] 0
  | present {sp₁ sp₂ sp₃ sp₄ number : List Char} {priority : Int32} (h₁ : Spaces sp₁)
      (h₂ : Spaces sp₂) (h₃ : Spaces sp₃) (hne : sp₃ ≠ []) (hnumber : Numeral number priority.toInt)
      (h₄ : Spaces sp₄) :
      PriorityPart (sp₁ ++ '(' :: sp₂ ++ "priority".toList ++ sp₃ ++ number ++ sp₄ ++ [')'])
        priority

/-- What follows the word `rule` and its blanks in a line with a rule, up to the end of the text. -/
inductive RuleBody : List Char → Rule → Prop
  | intro {number ann sp text : List Char} {id priority : Int32}
      (hnumber : Numeral number id.toInt) (hann : PriorityPart ann priority) (hsp : Spaces sp)
      (htext : '\r' ∉ text) (hblank : Text.trim text ≠ []) :
      RuleBody (number ++ ann ++ sp ++ ':' :: text) ⟨id, priority, String.ofList (Text.trim text)⟩

/-- What may stand between the last character that counts and the end of the line. -/
inductive Ending : (ended : Bool) → List Char → Prop
  | nothing (ended : Bool) : Ending ended []
  | carriageReturn : Ending true ['\r']

/-- What a line says: nothing, or a rule. -/
inductive Line.Says : Line → Option Rule → Prop
  | blank {gap : List Char} {ended : Bool} (hgap : ∀ c ∈ gap, isGap c = true) :
      Says ⟨gap, ended⟩ none
  | comment {gap text ending : List Char} {ended : Bool} (hgap : ∀ c ∈ gap, isGap c = true)
      (htext : '\r' ∉ text) (hending : Ending ended ending) :
      Says ⟨gap ++ '#' :: text ++ ending, ended⟩ none
  | rule {gap sp body ending : List Char} {ended : Bool} {rule : Rule}
      (hgap : ∀ c ∈ gap, isGap c = true) (hsp : Spaces sp) (hne : sp ≠ [])
      (hbody : RuleBody body rule) (hending : Ending ended ending) :
      Says ⟨gap ++ "rule".toList ++ sp ++ body ++ ending, ended⟩ (some rule)

/-- The line says something: it is blank, a comment, or a rule. -/
def Line.Good (line : Line) : Prop := ∃ said, line.Says said

/-- A line that is not blank is bad without a `#` and a `:` in it. -/
theorem Line.not_good {line : Line} {c : Char} (hc : c ∈ line.chars) (hgap : isGap c = false)
    (hhash : '#' ∉ line.chars) (hcolon : ':' ∉ line.chars) : ¬line.Good := by
  rintro ⟨said, h⟩
  cases h with
  | blank hblank => exact absurd (hblank c hc) (by simp [hgap])
  | comment => simp at hhash
  | rule _ _ _ hbody =>
    obtain ⟨-⟩ := hbody
    simp at hcolon

/-! ## Cutting a text into lines -/

theorem lines_last {cs : List Char} (h : '\n' ∉ cs) : lines cs = [⟨cs, false⟩] := by
  rw [lines, Text.segments_eq_singleton h, Line.ofSegments]

theorem lines_next {cs : List Char} (h : '\n' ∉ cs) (r : List Char) :
    lines (cs ++ '\n' :: r) = ⟨cs, true⟩ :: lines r := by
  rw [lines, lines, Text.segments_append h]
  cases hs : Text.segments '\n' r with
  | nil => exact absurd hs (Text.segments_ne_nil '\n' r)
  | cons next rest => rw [Line.ofSegments]

@[simp] theorem lineStart_zero (ls : List Line) : lineStart ls 0 = 0 := rfl

theorem lineStart_cons (line : Line) (ls : List Line) (i : Nat) :
    lineStart (line :: ls) (i + 1) = line.chars.length + 1 + lineStart ls i := by
  simp [lineStart]

/-- A text is a last line, or a line that is ended and a text. -/
@[elab_as_elim]
theorem line_induction {motive : List Char → Prop} (last : ∀ cs, '\n' ∉ cs → motive cs)
    (next : ∀ cs r, '\n' ∉ cs → motive r → motive (cs ++ '\n' :: r)) (text : List Char) :
    motive text := by
  induction hn : text.length using Nat.strongRecOn generalizing text with
  | ind n ih =>
    by_cases h : '\n' ∈ text
    · obtain ⟨cs, r, rfl, hcs⟩ := List.eq_append_cons_of_mem h
      refine next cs r hcs (ih r.length ?_ r rfl)
      simp only [List.length_append, List.length_cons] at hn
      omega
    · exact last text h

end WordLogic.RuleFile
