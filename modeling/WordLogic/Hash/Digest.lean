/-!
# Digests and little-endian numbers

A digest is 32 bytes. Numbers in a fixed count of bytes are written with the lowest byte first.
-/

namespace WordLogic

/-- A row of 32 bytes that stands for a text of any length. -/
abbrev Digest := Vector UInt8 32

namespace LittleEndian

/-- The lowest `count` bytes of a number, the lowest first. -/
def encode : (count n : Nat) → List UInt8
  | 0, _ => []
  | count + 1, n => n.toUInt8 :: encode count (n / 0x100)

/-- The number that bytes write, the lowest byte first. -/
def decode : List UInt8 → Nat
  | [] => 0
  | b :: bs => b.toNat + 0x100 * decode bs

theorem length_encode (count n : Nat) : (encode count n).length = count := by
  induction count generalizing n with
  | zero => rfl
  | succ count ih => simp [encode, ih]

/-- The numbers that so many bytes can write are below this one. -/
def bound : (count : Nat) → Nat
  | 0 => 1
  | count + 1 => 0x100 * bound count

theorem decode_lt (bs : List UInt8) : decode bs < bound bs.length := by
  induction bs with
  | nil => exact Nat.one_pos
  | cons b bs ih =>
    have := b.toNat_lt
    simp only [decode, List.length_cons, bound] at *
    omega

/-- A number that fits into the bytes reads back. -/
theorem decode_encode {count n : Nat} (h : n < bound count) : decode (encode count n) = n := by
  induction count generalizing n with
  | zero =>
    simp only [bound, Nat.lt_one_iff] at h
    simp [encode, decode, h]
  | succ count ih =>
    have hn : n / 0x100 < bound count := by
      rw [bound] at h
      omega
    simp only [encode, decode, ih hn]
    exact Nat.mod_add_div n 0x100

end LittleEndian

end WordLogic
