/-!
# UTF-8

`Utf8.encode` writes a text as bytes, `Utf8.decode` reads it back and says where and how bytes fail
to be a text. In a sequence of several bytes the first one fixes the length and, against overlong
forms, surrogates and numbers past the last code point, the range of the second; the others go from
`80` to `BF`.
-/

namespace WordLogic.Utf8

/-- The bytes of one character. -/
def encodeChar (c : Char) : List UInt8 :=
  let n := c.toNat
  if n < 0x80 then [n.toUInt8]
  else if n < 0x800 then [(0xC0 + n / 0x40).toUInt8, (0x80 + n % 0x40).toUInt8]
  else if n < 0x10000 then
    [(0xE0 + n / 0x1000).toUInt8, (0x80 + n / 0x40 % 0x40).toUInt8, (0x80 + n % 0x40).toUInt8]
  else
    [(0xF0 + n / 0x40000).toUInt8, (0x80 + n / 0x1000 % 0x40).toUInt8,
      (0x80 + n / 0x40 % 0x40).toUInt8, (0x80 + n % 0x40).toUInt8]

/-- The bytes of a text. -/
def encode (cs : List Char) : List UInt8 := cs.flatMap encodeChar

/-- Why bytes are no text: the number of bytes that are, and the number of bytes after them that
cannot begin a character, or `none` when the bytes end inside a character. -/
structure Fault where
  validUpTo : Nat
  errorLength : Option Nat
deriving Repr, DecidableEq

/-- What the first byte of a character says. -/
structure Lead where
  /-- The number of bytes to follow. -/
  following : Nat
  /-- The range of the byte that follows. -/
  low : Nat
  high : Nat
  /-- The bits of the code point in the first byte. -/
  bits : Nat
deriving Repr, DecidableEq

/-- The first byte of a character. -/
def lead? (b : Nat) : Option Lead :=
  if b < 0x80 then some ⟨0, 0, 0, b⟩
  else if b < 0xC2 then none
  else if b < 0xE0 then some ⟨1, 0x80, 0xBF, b - 0xC0⟩
  else if b = 0xE0 then some ⟨2, 0xA0, 0xBF, 0⟩
  else if b = 0xED then some ⟨2, 0x80, 0x9F, 0xD⟩
  else if b < 0xF0 then some ⟨2, 0x80, 0xBF, b - 0xE0⟩
  else if b = 0xF0 then some ⟨3, 0x90, 0xBF, 0⟩
  else if b < 0xF4 then some ⟨3, 0x80, 0xBF, b - 0xF0⟩
  else if b = 0xF4 then some ⟨3, 0x80, 0x8F, 4⟩
  else none

/-- The code point of a character of which `read` bytes with the bits `bits` were read and
`following` are to follow, the next one between `low` and `high`; and what follows the character.
An error is the number of bytes that cannot go on. -/
def readRest : (following low high bits read : Nat) → List UInt8 →
    Except (Option Nat) (Nat × List UInt8)
  | 0, _, _, bits, _, bs => .ok (bits, bs)
  | _ + 1, _, _, _, _, [] => .error none
  | k + 1, low, high, bits, read, b :: bs =>
    if low ≤ b.toNat ∧ b.toNat ≤ high then
      readRest k 0x80 0xBF (bits * 0x40 + (b.toNat - 0x80)) (read + 1) bs
    else .error (some read)

/-- The bytes of a character are taken from the start. -/
theorem length_readRest {k low high bits read n : Nat} {bs r : List UInt8}
    (h : readRest k low high bits read bs = .ok (n, r)) : r.length ≤ bs.length := by
  induction k generalizing low high bits read bs with
  | zero =>
    simp only [readRest, Except.ok.injEq, Prod.mk.injEq] at h
    simp [h.2]
  | succ k ih =>
    cases bs with
    | nil => simp [readRest] at h
    | cons b bs =>
      simp only [readRest] at h
      split at h
      · exact Nat.le_succ_of_le (ih h)
      · cases h

/-- Reads bytes that stand after `done` others. -/
def decodeFrom (done : Nat) (bs : List UInt8) : Except Fault (List Char) :=
  match bs with
  | [] => .ok []
  | b :: r =>
    match lead? b.toNat with
    | none => .error ⟨done, some 1⟩
    | some l =>
      match _h : readRest l.following l.low l.high l.bits 1 r with
      | .error length => .error ⟨done, length⟩
      | .ok (n, rest) =>
        match decodeFrom (done + 1 + l.following) rest with
        | .error e => .error e
        | .ok cs => .ok (Char.ofNat n :: cs)
termination_by bs.length
decreasing_by
  have := length_readRest ‹_›
  simp only [List.length_cons]
  omega

/-- The text that the bytes write. -/
def decode (bs : List UInt8) : Except Fault (List Char) := decodeFrom 0 bs

end WordLogic.Utf8
