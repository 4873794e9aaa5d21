import WordLogic.Blob
import WordLogic.Condition.Evaluation
import WordLogic.RuleFile.FormatError
import WordLogic.RuleSet.Build

/-!
# Errors

Everything that can go wrong between a text or a file and a verdict, each fault with the wording of
the part of the library that found it.
-/

namespace WordLogic

/-- Why a file cannot be used. -/
inductive FileError
  /-- There is no such file, or no such directory. -/
  | notFound
  /-- A rule file is not UTF-8. -/
  | invalidData
deriving Repr, DecidableEq

/-- The wording of the fault. -/
def FileError.message : FileError → String
  | .notFound => "NotFound"
  | .invalidData => "InvalidData"

/-- Why the library gave no answer. -/
inductive Error
  | text (cause : TextError)
  | build (cause : BuildError)
  | ruleFile (cause : FormatError)
  | blob (cause : BlobError)
  | file (cause : FileError)
  | fault (cause : Fault)
  /-- A blob has no byte with this index. -/
  | noSuchByte (index : Nat)
deriving Repr, DecidableEq

/-- The wording of the error. -/
def Error.message : Error → String
  | .text cause => cause.message
  | .build cause => cause.message
  | .ruleFile cause => cause.message
  | .blob cause => cause.message
  | .file cause => cause.message
  | .fault cause => cause.message
  | .noSuchByte index => "no byte " ++ toString index

end WordLogic
