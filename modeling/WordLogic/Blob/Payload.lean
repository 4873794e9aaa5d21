import WordLogic.Blob.Number
import WordLogic.RuleSet

/-!
# Payloads

A payload is a rule set as bytes: the number of its rules and of its groups, the digest of its
source if there is one, and the rules with their conditions. A list is its length and then its
items, a text its length in bytes and then its bytes. Nothing else stands between the fields, so the
bytes alone tell where a payload ends.
-/

namespace WordLogic.Blob

/-- What a payload says: the contents of a rule set, and two counts to check them by. -/
structure Payload where
  ruleCount : Nat
  groupCount : Nat
  sourceDigest : Option Digest
  entries : List Entry
deriving DecidableEq

/-! ## Writing -/

/-- A truth value is one byte. -/
def encodeBool (b : Bool) : List UInt8 := [if b then 1 else 0]

/-- A text is its length in bytes and its bytes. -/
def encodeText (s : String) : List UInt8 :=
  let bytes := Utf8.encode s.toList
  Number.encode bytes.length ++ bytes

/-- A list is its length and its items. -/
def encodeList {α : Type} (item : α → List UInt8) (xs : List α) : List UInt8 :=
  Number.encode xs.length ++ xs.flatMap item

/-- An atom is the number of its kind and its contents. -/
def encodeAtom : Atom → List UInt8
  | .word w => Number.encode 0 ++ encodeText w
  | .group k => Number.encode 1 ++ Number.encode k

/-- A literal is whether it is an alternative, whether it is negated, and its atom. -/
def encodeLiteral (l : Literal) : List UInt8 :=
  encodeBool (l.connective = .or) ++ encodeBool l.negated ++ encodeAtom l.atom

/-- A group is the list of its literals. -/
def encodeGroup (g : Group) : List UInt8 := encodeList encodeLiteral g.literals

/-- A rule is its identifier, priority and text, and the root and the groups of its condition. -/
def encodeEntry (e : Entry) : List UInt8 :=
  Number.encodeSigned e.rule.id ++ Number.encodeSigned e.rule.priority ++ encodeText e.rule.text ++
    Number.encode e.condition.root ++ encodeList encodeGroup e.condition.groups

/-- A digest that may be absent: a byte that says so, and its bytes. -/
def encodeDigest : Option Digest → List UInt8
  | none => [0]
  | some d => 1 :: d.toList

/-- The bytes of a payload. -/
def Payload.encode (p : Payload) : List UInt8 :=
  Number.encode p.ruleCount ++ Number.encode p.groupCount ++ encodeDigest p.sourceDigest ++
    encodeList encodeEntry p.entries

/-! ## Reading -/

/-- Reads a truth value. -/
def readBool : Reader Bool := do
  let b ← Reader.byte
  if b = 0 then return false
  else if b = 1 then return true
  else throw (.badBool b)

/-- Reads a text. -/
def readText : Reader String := do
  let length ← Number.decode .long
  let bytes ← Reader.bytes length
  match Utf8.decode bytes with
  | .ok cs => return String.ofList cs
  | .error fault => throw (.badText fault)

/-- Reads a list. -/
def readList {α : Type} (item : Reader α) : Reader (List α) := do
  let length ← Number.decode .listLength
  Reader.many item length

/-- Reads an atom. -/
def readAtom : Reader Atom := do
  match ← Number.decode .variant with
  | 0 => return .word (← readText)
  | 1 => return .group (← Number.decode .long)
  | index => throw (.badVariant index)

/-- Reads a literal. -/
def readLiteral : Reader Literal := do
  let alternative ← readBool
  let negated ← readBool
  let atom ← readAtom
  return ⟨if alternative then .or else .and, negated, atom⟩

/-- Reads a group. -/
def readGroup : Reader Group := do return ⟨← readList readLiteral⟩

/-- Reads a rule with its condition. -/
def readEntry : Reader Entry := do
  let id ← Number.decodeSigned
  let priority ← Number.decodeSigned
  let text ← readText
  let root ← Number.decode .long
  let groups ← readList readGroup
  return ⟨⟨id, priority, text⟩, ⟨groups, root⟩⟩

/-- Reads a digest that may be absent. -/
def readDigest : Reader (Option Digest) := do
  let b ← Reader.byte
  if b = 0 then return none
  else if b = 1 then return some (← Reader.row 32)
  else throw (.badOption b)

/-- Reads a payload. -/
def readPayload : Reader Payload := do
  let ruleCount ← Number.decode .long
  let groupCount ← Number.decode .long
  let sourceDigest ← readDigest
  let entries ← readList readEntry
  return ⟨ruleCount, groupCount, sourceDigest, entries⟩

/-- The payload at the start of the bytes. What follows it is ignored. -/
def Payload.decode (bytes : List UInt8) : Except PayloadError Payload :=
  (readPayload.run bytes).map (·.1)

end WordLogic.Blob
