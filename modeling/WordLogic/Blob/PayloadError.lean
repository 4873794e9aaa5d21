import WordLogic.Text.Utf8

/-!
# Faults of a payload

Why the bytes of a payload cannot be read, and the wording. Reading goes from left to right and
stops at the first fault.
-/

namespace WordLogic.Blob

/-- What a number in a payload is for, which fixes how wide it can be. -/
inductive NumberKind
  /-- A count, an index, or the length of a text. -/
  | long
  /-- The length of a list. -/
  | listLength
  /-- An identifier or a priority. -/
  | signed
  /-- The kind of an atom. -/
  | variant
deriving Repr, DecidableEq

/-- A first byte that announces a number wider than its kind allows. -/
inductive WideMarker
  | eightBytes
  | sixteenBytes
  /-- A marker without a meaning. -/
  | reserved
deriving Repr, DecidableEq

/-- Why a payload cannot be read. -/
inductive PayloadError
  /-- The bytes end, and so many are missing. -/
  | ended (missing : Nat)
  /-- A number is wider than its kind allows; `left` bytes were left, its marker included. -/
  | tooWide (kind : NumberKind) (marker : WideMarker) (left : Nat)
  | badBool (byte : UInt8)
  /-- The byte says neither that a value is present nor that it is absent. -/
  | badOption (byte : UInt8)
  /-- There is no kind of atom with this number. -/
  | badVariant (index : Nat)
  | badText (fault : Utf8.Fault)
deriving Repr, DecidableEq

/-- A number of this kind can take eight bytes. -/
def NumberKind.isWide : NumberKind → Bool
  | .long => true
  | .listLength => true
  | .signed => false
  | .variant => false

/-- The type that is named for a number of this kind when `left` bytes are left. A long number is
named by its full width only near the end, where its nine bytes would not fit. -/
def NumberKind.type (left : Nat) : NumberKind → String
  | .long => if left < 9 then "U64" else "U32"
  | .listLength => "Usize"
  | .signed => "I32"
  | .variant => "U32"

/-- The type that a marker announces for a number of this kind. -/
def WideMarker.type (kind : NumberKind) : WideMarker → String
  | .eightBytes => if kind = .signed then "I64" else "U64"
  | .sixteenBytes => if kind = .signed then "I128" else "U128"
  | .reserved => "Reserved"

/-- A number of bytes that may be unknown. -/
def lengthText : Option Nat → String
  | none => "None"
  | some n => "Some(" ++ toString n ++ ")"

/-- The wording of the fault. Names of types and fields are part of it. -/
def PayloadError.message : PayloadError → String
  | .ended missing => "UnexpectedEnd \x7b additional: " ++ toString missing ++ " \x7d"
  | .tooWide kind marker left =>
    "InvalidIntegerType \x7b expected: " ++ kind.type left ++ ", found: " ++ marker.type kind ++
      " \x7d"
  | .badBool byte => "InvalidBooleanValue(" ++ toString byte.toNat ++ ")"
  | .badOption byte =>
    "UnexpectedVariant \x7b type_name: \"Option<T>\", " ++
      "allowed: Range \x7b min: 0, max: 1 \x7d, found: " ++ toString byte.toNat ++ " \x7d"
  | .badVariant index =>
    "OtherString(\"invalid value: integer `" ++ toString index ++
      "`, expected variant index 0 <= i < 2\")"
  | .badText fault =>
    "Utf8 \x7b inner: Utf8Error \x7b valid_up_to: " ++ toString fault.validUpTo ++
      ", error_len: " ++ lengthText fault.errorLength ++ " \x7d \x7d"

end WordLogic.Blob
