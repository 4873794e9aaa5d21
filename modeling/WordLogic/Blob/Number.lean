import WordLogic.Blob.Reader

/-!
# Numbers in a payload

A number below 251 is one byte. A larger one is a marker, 251, 252 or 253, and then two, four or
eight bytes, the lowest first; `Number.encode` takes the shortest form and `Number.decode` accepts a
longer one. A signed number `n` is written as `2 * n`, or as `-2 * n - 1` when it is negative.
-/

namespace WordLogic.Blob.Number

/-- The shortest form of a number below `2 ^ 64`. -/
def encode (n : Nat) : List UInt8 :=
  if n < 251 then [n.toUInt8]
  else if n < 0x10000 then 251 :: LittleEndian.encode 2 n
  else if n < 0x100000000 then 252 :: LittleEndian.encode 4 n
  else 253 :: LittleEndian.encode 8 n

/-- Reads a number of a kind. A number that is too wide is refused at its marker. -/
def decode (kind : NumberKind) : Reader Nat := do
  let rest ← get
  let marker ← Reader.byte
  if marker.toNat < 251 then return marker.toNat
  else if marker = 251 then return LittleEndian.decode (← Reader.bytes 2)
  else if marker = 252 then return LittleEndian.decode (← Reader.bytes 4)
  else if marker = 253 then
    if kind.isWide then return LittleEndian.decode (← Reader.bytes 8)
    else throw (.tooWide kind .eightBytes rest.length)
  else if marker = 254 then throw (.tooWide kind .sixteenBytes rest.length)
  else throw (.tooWide kind .reserved rest.length)

/-- The natural number that stands for a signed one. -/
def zigzag (n : Int) : Nat := if 0 ≤ n then (2 * n).toNat else (-2 * n - 1).toNat

/-- The signed number that a natural number stands for. -/
def unzigzag (n : Nat) : Int := if n % 2 = 0 then (n / 2 : Nat) else -((n / 2 : Nat) : Int) - 1

/-- The shortest form of a signed number. -/
def encodeSigned (n : Int32) : List UInt8 := encode (zigzag n.toInt)

/-- Reads a signed number. -/
def decodeSigned : Reader Int32 := do return Int32.ofInt (unzigzag (← decode .signed))

end WordLogic.Blob.Number
