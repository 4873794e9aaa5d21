import WordLogic.Text.Segments
import WordLogic.TextError

/-!
# Tokens

Rule text without parentheses is a row of tokens with one space between neighbours. There are four
kinds: a bar, a reference `#2` to a group, a word `&cat`, and a word with endings `&walk[s/ed]`; all
but the bar can be negated by a leading `!`. `Token.ofChars` recognises them and `Token.render`
writes them.
-/

namespace WordLogic

/-- A token of rule text. -/
inductive Token
  /-- The bar makes its neighbours alternatives. -/
  | bar
  | group (index : Nat) (negated : Bool)
  | word (word : List Char) (negated : Bool)
  /-- A word with its endings: the word itself, and the word with each ending put after it. -/
  | expansion (base : List Char) (endings : List (List Char)) (negated : Bool)
deriving Repr, DecidableEq

namespace Token

/-- Group indices in rule text stay below this bound. -/
def indexBound : Nat := 0x10000000000000000

/-- An opening or closing bracket. -/
def isBracket (c : Char) : Bool := c == '[' || c == ']'

/-- The number that decimal digits write, if there is a digit, nothing else, and the number is an
index. Leading zeros are allowed. -/
def index? (cs : List Char) : Option Nat :=
  if cs ≠ [] ∧ cs.all Char.isDigit ∧ Nat.ofDigitChars 10 cs 0 < indexBound then
    some (Nat.ofDigitChars 10 cs 0)
  else none

/-- The endings of a bracket list `[s/ed]` that is the whole text. There is at least one, and none
is empty or has a bracket in it. -/
def endings? : List Char → Option (List (List Char))
  | '[' :: cs =>
    let inner := cs.takeWhile (!isBracket ·)
    let endings := Text.segments '/' inner
    if cs.dropWhile (!isBracket ·) = [']'] ∧ [] ∉ endings then some endings else none
  | _ => none

/-- What stands after `&`: a word, or a word with a bracket list. -/
def word? (cs : List Char) (negated : Bool) : Option Token :=
  let base := cs.takeWhile (!isBracket ·)
  match base, cs.dropWhile (!isBracket ·) with
  | [], _ => none
  | _, [] => some (.word base negated)
  | _, rest => (endings? rest).map (.expansion base · negated)

/-- Recognises a token whose `!`, if any, was taken off: `raw` is the whole token. -/
def ofBody (raw : List Char) (negated : Bool) : List Char → Except TextError Token
  | '#' :: digits =>
    match index? digits with
    | some k => .ok (.group k negated)
    | none => .error (.badReference (String.ofList raw))
  | '|' :: _ =>
    if negated then .error (.unknownToken (String.ofList raw)) else .ok .bar
  | '&' :: c :: cs =>
    match word? (c :: cs) negated with
    | some token => .ok token
    | none => .error (.badBrackets (String.ofList raw))
  | _ => .error (.unknownToken (String.ofList raw))

/-- Recognises a token by the characters it begins with. Whatever follows a bar is ignored. -/
def ofChars : List Char → Except TextError Token
  | '!' :: body => ofBody ('!' :: body) true body
  | raw => ofBody raw false raw

/-- The mark of a negated token. -/
def sign (negated : Bool) : List Char := if negated then ['!'] else []

/-- The token in rule syntax. -/
def render : Token → List Char
  | .bar => ['|']
  | .group k negated => sign negated ++ '#' :: Nat.toDigits 10 k
  | .word w negated => sign negated ++ '&' :: w
  | .expansion base endings negated =>
    sign negated ++ '&' :: base ++ '[' :: Text.joinSegments '/' endings ++ [']']

end Token

end WordLogic
