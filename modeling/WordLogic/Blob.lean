import WordLogic.Blob.Validity
import WordLogic.Hash.Blake3

/-!
# Blobs

A blob is a rule set in a file: a header of 32 bytes and a payload. The header holds four bytes of
magic, the version of the format and of the writer in two bytes each, four bytes without use, the
length of the payload in four bytes, and the first half of the payload's digest. `Blob.decode` looks
at the header first, then at the payload that it announces and at nothing else.
-/

namespace WordLogic

/-- Why bytes are no blob, or a rule set does not go into one. -/
inductive BlobError
  | noMagic
  | otherVersion (found : Nat)
  | wrongChecksum
  | tooShort (needed found : Nat)
  | payload (cause : Blob.PayloadError)
  | invalid (cause : Blob.Invalid)
  /-- The blob was not made from the source at hand. -/
  | otherSource
  /-- The payload has more bytes than a header can state. -/
  | tooLarge (bytes : Nat)
deriving Repr, DecidableEq

namespace Blob

/-- The bytes that a blob begins with. -/
def magic : List UInt8 := [0x57, 0x52, 0x55, 0x4C]

/-- The version of the format. -/
def version : Nat := 1

/-- The version of the writer, which no reader looks at. -/
def writerVersion : Nat := 1

/-- The number of bytes of a header. -/
def headerLength : Nat := 32

/-- The first half of the digest of a payload. -/
def checksum (payload : List UInt8) : List UInt8 := (Blake3.digest payload).toList.take 16

/-- The header for a payload. -/
def encodeHeader (payload : List UInt8) : List UInt8 :=
  magic ++ LittleEndian.encode 2 version ++ LittleEndian.encode 2 writerVersion ++
    LittleEndian.encode 4 0 ++ LittleEndian.encode 4 payload.length ++ checksum payload

/-- What a reader wants to know from a header. -/
structure Header where
  version : Nat
  payloadLength : Nat
  checksum : List UInt8
deriving Repr, DecidableEq

/-- The header of a blob, and the bytes after it. -/
def decodeHeader (bytes : List UInt8) : Except BlobError (Header × List UInt8) :=
  if bytes.length < headerLength then .error (.tooShort headerLength bytes.length)
  else if bytes.take 4 ≠ magic then .error .noMagic
  else .ok
    (⟨LittleEndian.decode ((bytes.drop 4).take 2), LittleEndian.decode ((bytes.drop 12).take 4),
      (bytes.drop 16).take 16⟩, bytes.drop headerLength)

/-- The digest of a source text. -/
def sourceDigest (source : String) : Digest := Blake3.digest (Utf8.encode source.toList)

/-- The payload of a rule set that is stored with a source, if there is one. -/
def payloadOf (rs : RuleSet) (source : Option String) : Payload :=
  ⟨rs.size, rs.groupCount, source.map sourceDigest, rs.entries⟩

/-- The blob of a rule set. The digest that it was read with is not written again. -/
def encode (rs : RuleSet) (source : Option String) : Except BlobError (List UInt8) :=
  let payload := (payloadOf rs source).encode
  if payload.length < 0x100000000 then .ok (encodeHeader payload ++ payload)
  else .error (.tooLarge payload.length)

/-- The payload that a blob announces, as bytes. -/
def payloadBytes (bytes : List UInt8) : Except BlobError (List UInt8) :=
  match decodeHeader bytes with
  | .error e => .error e
  | .ok (header, rest) =>
    let payload := rest.take header.payloadLength
    if header.version ≠ version then .error (.otherVersion header.version)
    else if rest.length < header.payloadLength then
      .error (.tooShort (headerLength + header.payloadLength) bytes.length)
    else if checksum payload ≠ header.checksum then .error .wrongChecksum
    else .ok payload

/-- The rule set of a payload. -/
def ofPayload (payload : List UInt8) : Except BlobError RuleSet :=
  match Payload.decode payload with
  | .error e => .error (.payload e)
  | .ok p =>
    match p.check with
    | .error e => .error (.invalid e)
    | .ok () => .ok ⟨p.entries, p.sourceDigest⟩

/-- The rule set of a blob. -/
def decode (bytes : List UInt8) : Except BlobError RuleSet :=
  match payloadBytes bytes with
  | .error e => .error e
  | .ok payload => ofPayload payload

/-- The rule set of a blob that was stored with the given source. -/
def decodeForSource (bytes : List UInt8) (source : String) : Except BlobError RuleSet :=
  match decode bytes with
  | .error e => .error e
  | .ok rs =>
    if rs.sourceDigest = some (sourceDigest source) then .ok rs else .error .otherSource

end Blob

/-- The wording of the fault. -/
def BlobError.message : BlobError → String
  | .noMagic => "missing WRUL magic bytes"
  | .otherVersion found =>
    "blob has format version " ++ toString found ++ ", expected " ++ toString Blob.version
  | .wrongChecksum => "payload checksum does not match header"
  | .tooShort needed found =>
    "blob truncated: need " ++ toString needed ++ " bytes, found " ++ toString found
  | .payload cause => "cannot decode payload: " ++ cause.message
  | .invalid cause => "invalid rule set: " ++ cause.message
  | .otherSource => "cached rule set was not built from the current source"
  | .tooLarge bytes =>
    "encoded rule set is " ++ toString bytes ++ " bytes, more than a blob can hold"

end WordLogic
