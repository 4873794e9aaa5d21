import WordLogic.Text.Blank
import WordLogic.Text.Casing
import WordLogic.Text.Segments

/-!
# Sentences

A sentence is a row of uppercase tokens. Its text is trimmed and cut at spaces; a token may hold any
other blank character, and the empty pieces between neighbouring spaces are dropped.
-/

namespace WordLogic

/-- The tokens of a text. -/
structure Sentence where
  tokens : List String
deriving Repr, DecidableEq

namespace Sentence

/-- The pieces between the spaces of a trimmed text, without the empty ones. -/
def words (text : List Char) : List (List Char) :=
  (Text.segments ' ' (Text.trim text)).filter (· ≠ [])

/-- The sentence that a text writes. -/
def ofText (text : String) : Sentence :=
  ⟨(words text.toList).map fun w => String.ofList (Text.upper w)⟩

/-- The word is one of the tokens, as written. -/
def contains (s : Sentence) (word : String) : Bool := s.tokens.contains word

/-- The number of tokens, repeated ones included. -/
def length (s : Sentence) : Nat := s.tokens.length

/-- The sentence has no token. -/
def isEmpty (s : Sentence) : Bool := s.tokens.isEmpty

end Sentence

end WordLogic
