/-!
# Faults of rule files

A fault is a place in the text of a rule file, with what was expected there where that is known.
`FormatError.message` shows the place: the line with a caret under the column, or, for a text of a
single line, the text with a caret. The place after the last character counts as the column after
it, on its line.
-/

namespace WordLogic

/-- What a rule file should have at the place of a fault. -/
inductive Expectation
  | ruleId
  | ruleText
deriving Repr, DecidableEq

/-- The wording of an expectation. -/
def Expectation.message : Expectation → String
  | .ruleId => "expected rule id"
  | .ruleText => "expected rule text"

/-- A place in a text, as the characters before it, and what was expected there. -/
structure FormatError where
  text : List Char
  offset : Nat
  expected : Option Expectation
deriving Repr, DecidableEq

namespace FormatError

/-- The line and the column of a place, both counted from zero. -/
def position (text : List Char) (offset : Nat) : Nat × Nat :=
  let anchor := min offset (text.length - 1)
  let before := text.take anchor
  let column := (before.reverse.takeWhile (· ≠ '\n')).length
  (before.count '\n', column + (offset - anchor))

/-- The line with a number counted from zero, without its `\n`. -/
def lineAt : (number : Nat) → List Char → List Char
  | 0, cs => cs.takeWhile (· ≠ '\n')
  | n + 1, cs => lineAt n ((cs.dropWhile (· ≠ '\n')).drop 1)

/-- So many spaces. -/
def spaces (n : Nat) : String := String.ofList (List.replicate n ' ')

/-- The number of bytes that a text takes. -/
def byteCount (cs : List Char) : Nat := cs.foldr (·.utf8Size + ·) 0

/-- The line of the place with a caret under its column. -/
def excerpt (text : List Char) (offset : Nat) : String :=
  let (line, column) := position text offset
  let number := toString (line + 1)
  let margin := spaces number.length
  "parse error at line " ++ number ++ ", column " ++ toString (column + 1) ++ "\n" ++
    margin ++ " |\n" ++
    number ++ " | " ++ String.ofList (lineAt line text) ++ "\n" ++
    margin ++ " | " ++ spaces column ++ "^\n"

/-- A text of one line with a caret under the place, which is counted in bytes here. -/
def lineExcerpt (text : List Char) (offset : Nat) : String :=
  String.ofList text ++ "\n" ++ spaces (byteCount (text.take offset)) ++ "^\n"

/-- The wording of the fault. -/
def message (e : FormatError) : String :=
  "syntax error: " ++
    (if '\n' ∈ e.text then excerpt e.text e.offset else lineExcerpt e.text e.offset) ++
    (e.expected.map Expectation.message).getD ""

end FormatError

end WordLogic
