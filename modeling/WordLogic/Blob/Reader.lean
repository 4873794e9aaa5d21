import WordLogic.Blob.PayloadError
import WordLogic.Hash.Digest

/-!
# Reading bytes

A `Reader` takes bytes from the start of what is left of a payload, or stops with a fault.
-/

namespace WordLogic.Blob

/-- Takes bytes from the start of those left and makes an `α` of them. -/
abbrev Reader (α : Type) := StateT (List UInt8) (Except PayloadError) α

namespace Reader

/-- The first `count` bytes and those after them, or the number of bytes that are missing. -/
def split : (count : Nat) → List UInt8 → Except Nat (List UInt8 × List UInt8)
  | 0, bs => .ok ([], bs)
  | count + 1, [] => .error (count + 1)
  | count + 1, b :: bs =>
    match split count bs with
    | .error missing => .error missing
    | .ok (xs, r) => .ok (b :: xs, r)

/-- The next `count` bytes, all at once. -/
def bytes (count : Nat) : Reader (List UInt8) := fun bs =>
  match split count bs with
  | .error missing => .error (.ended missing)
  | .ok r => .ok r

/-- The next byte. -/
def byte : Reader UInt8 := fun
  | [] => .error (.ended 1)
  | b :: bs => .ok (b, bs)

/-- The next `count` items, one after the other. -/
def many {α : Type} (item : Reader α) : (count : Nat) → Reader (List α)
  | 0 => return []
  | count + 1 => do
    let x ← item
    let xs ← many item count
    return x :: xs

/-- The next `count` bytes, one after the other. -/
def row : (count : Nat) → Reader (Vector UInt8 count)
  | 0 => return #v[]
  | count + 1 => do
    let v ← row count
    let b ← byte
    return v.push b

end Reader

end WordLogic.Blob
