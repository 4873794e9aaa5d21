/-!
# Faults of rule text

The five ways in which the text of a rule can be wrong, each with the part of the text that shows
it, and their wording.
-/

namespace WordLogic

/-- Why a rule text is no condition. -/
inductive TextError
  /-- A parenthesis has no partner; the text as far as its groups were replaced. -/
  | unpaired (text : String)
  /-- A token that begins like a reference names no group that is there. -/
  | badReference (token : String)
  /-- A word is followed by brackets that are no list of endings. -/
  | badBrackets (token : String)
  /-- A token that begins like none of the four kinds. -/
  | unknownToken (token : String)
  /-- A group, or the whole text, has no literal. -/
  | noLiteral
deriving Repr, DecidableEq

/-- The wording of the fault. -/
def TextError.message : TextError → String
  | .unpaired text => "unmatched parenthesis in '" ++ text ++ "'"
  | .badReference token => "invalid node reference '" ++ token ++ "'"
  | .badBrackets token => "malformed bracket expansion '" ++ token ++ "'"
  | .unknownToken token => "unexpected token '" ++ token ++ "'"
  | .noLiteral => "expression has no terms"

end WordLogic
