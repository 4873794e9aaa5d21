import WordLogic.Hash.Digest

/-!
# BLAKE3

The hash function BLAKE3 without a key, with 32 bytes of output. The input is cut into chunks of
1024 bytes, a chunk into blocks of 64 bytes, and a block into sixteen words. `Input` is one
application of the compression function: a chunk chains its blocks through it, and two neighbouring
parts of the tree over the chunks are joined by it. The left part of a tree is the largest full one
that leaves something for the right.
-/

namespace WordLogic.Blake3

/-- Sixteen words: a block, or the state of the compression function. -/
abbrev Block := Vector UInt32 16

/-- Eight words that stand for what was hashed so far. -/
abbrev Chain := Vector UInt32 8

/-- The chain that every chunk begins with. -/
def initialChain : Chain :=
  #v[0x6A09E667, 0xBB67AE85, 0x3C6EF372, 0xA54FF53A, 0x510E527F, 0x9B05688C, 0x1F83D9AB, 0x5BE0CD19]

/-! ## The compression function -/

/-- The word with its lowest `n` bits moved to the top. -/
def rotateRight (x n : UInt32) : UInt32 := (x >>> n) ||| (x <<< (32 - n))

/-- Mixes two message words into four words of the state. -/
def mix (s : Block) (a b c d : Fin 16) (x y : UInt32) : Block :=
  let va := s.get a + s.get b + x
  let vd := rotateRight (s.get d ^^^ va) 16
  let vc := s.get c + vd
  let vb := rotateRight (s.get b ^^^ vc) 12
  let va := va + vb + y
  let vd := rotateRight (vd ^^^ va) 8
  let vc := vc + vd
  let vb := rotateRight (vb ^^^ vc) 7
  (((s.set a va).set b vb).set c vc).set d vd

/-- The places of the state that are mixed in a round: four columns, then four diagonals. -/
def lanes : List (Fin 16 × Fin 16 × Fin 16 × Fin 16) :=
  [(0, 4, 8, 12), (1, 5, 9, 13), (2, 6, 10, 14), (3, 7, 11, 15),
   (0, 5, 10, 15), (1, 6, 11, 12), (2, 7, 8, 13), (3, 4, 9, 14)]

/-- Where each message word of the next round is found in this one. -/
def schedule : Vector (Fin 16) 16 := #v[2, 6, 3, 10, 7, 0, 4, 13, 1, 11, 12, 5, 9, 14, 15, 8]

/-- The message words of the next round. -/
def permute (m : Block) : Block := schedule.map m.get

/-- Mixes the message words in pairs, one pair to a lane. -/
def round (m s : Block) : Block :=
  let pairs := (List.finRange 8).map fun i : Fin 8 =>
    (m.get ⟨2 * i, by omega⟩, m.get ⟨2 * i + 1, by omega⟩)
  (lanes.zip pairs).foldl (fun s ((a, b, c, d), x, y) => mix s a b c d x y) s

/-- So many rounds, each with the message words permuted once more. -/
def rounds : Nat → Block → Block → Block
  | 0, _, s => s
  | n + 1, m, s => rounds n (permute m) (round m s)

/-- One application of the compression function. -/
structure Input where
  chain : Chain
  block : Block
  /-- The number of the chunk, 0 where two parts are joined. -/
  counter : UInt64
  /-- The number of bytes of the block that belong to the input. -/
  length : UInt32
  flags : UInt32

/-- The first block of a chunk. -/
def chunkStart : UInt32 := 1

/-- The last block of a chunk. -/
def chunkEnd : UInt32 := 2

/-- Two parts of the tree are joined. -/
def parent : UInt32 := 4

/-- The last application of all. -/
def root : UInt32 := 8

namespace Input

/-- The state before the first round. -/
def state (i : Input) : Block :=
  i.chain ++ #v[0x6A09E667, 0xBB67AE85, 0x3C6EF372, 0xA54FF53A,
    i.counter.toUInt32, (i.counter >>> 32).toUInt32, i.length, i.flags]

/-- The chain after the input: the two halves of the last state together. -/
def output (i : Input) : Chain :=
  let s := rounds 7 i.block i.state
  Vector.ofFn fun k : Fin 8 => s.get ⟨k, by omega⟩ ^^^ s.get ⟨k + 8, by omega⟩

end Input

/-! ## Chunks and the tree over them -/

/-- The word that the four bytes from an index on write; missing bytes are zero. -/
def word (bytes : List UInt8) (index : Nat) : UInt32 :=
  (LittleEndian.decode ((bytes.drop index).take 4)).toUInt32

/-- The words of up to 64 bytes. -/
def block (bytes : List UInt8) : Block := Vector.ofFn fun i : Fin 16 => word bytes (4 * i)

/-- The last input of a chunk with the given number, from a chain and the bytes that are left. The
flags go to the next block only. -/
def chunk (counter : UInt64) (chain : Chain) (flags : UInt32) (bytes : List UInt8) : Input :=
  if bytes.length ≤ 64 then
    ⟨chain, block bytes, counter, bytes.length.toUInt32, flags ||| chunkEnd⟩
  else
    chunk counter (Input.output ⟨chain, block (bytes.take 64), counter, 64, flags⟩) 0
      (bytes.drop 64)
termination_by bytes.length
decreasing_by
  simp only [List.length_drop]
  omega

/-- How many of `length` bytes, more than one chunk, go to the left: the largest power of two of
chunks that is less than all. -/
def leftLength (length : Nat) : Nat := 1024 <<< ((length - 1) / 1024).log2

theorem leftLength_pos (length : Nat) : 0 < leftLength length := by
  rw [leftLength, Nat.shiftLeft_eq]
  exact Nat.mul_pos (by decide) (Nat.two_pow_pos _)

/-- Something is left for the right. -/
theorem leftLength_lt (length : Nat) (h : 1024 < length) : leftLength length < length := by
  have := Nat.log2_self_le (n := (length - 1) / 1024) (by omega)
  rw [leftLength, Nat.shiftLeft_eq]
  omega

/-- The last input of the tree over bytes that begin with the chunk of the given number. -/
def tree (counter : Nat) (bytes : List UInt8) : Input :=
  if bytes.length ≤ 1024 then chunk counter.toUInt64 initialChain chunkStart bytes
  else
    let left := leftLength bytes.length
    let l := (tree counter (bytes.take left)).output
    let r := (tree (counter + left / 1024) (bytes.drop left)).output
    ⟨initialChain, l ++ r, 0, 64, parent⟩
termination_by bytes.length
decreasing_by
  · have := leftLength_lt bytes.length (by omega)
    simp only [List.length_take]
    omega
  · have := leftLength_pos bytes.length
    simp only [List.length_drop]
    omega

/-- The bytes of a chain. -/
def Chain.bytes (c : Chain) : Digest :=
  Vector.ofFn fun i : Fin 32 => (c.get ⟨i / 4, by omega⟩ >>> (8 * (i.val % 4)).toUInt32).toUInt8

/-- The digest of a row of bytes. -/
def digest (bytes : List UInt8) : Digest :=
  let last := tree 0 bytes
  Chain.bytes (Input.output { last with flags := last.flags ||| root })

/-- Bytes that fit into a block are hashed by one application of the compression function. -/
theorem digest_of_length_le {bytes : List UInt8} (h : bytes.length ≤ 64) :
    digest bytes = Chain.bytes (Input.output
      ⟨initialChain, block bytes, 0, bytes.length.toUInt32, chunkStart ||| chunkEnd ||| root⟩) := by
  have hchunk : bytes.length ≤ 1024 := by omega
  rw [digest, tree, if_pos hchunk, chunk, if_pos h]
  rfl

/-- The digest of no bytes. -/
example : digest [] =
    #v[0xAF, 0x13, 0x49, 0xB9, 0xF5, 0xF9, 0xA1, 0xA6, 0xA0, 0x40, 0x4D, 0xEA, 0x36, 0xDC, 0xC9,
      0x49, 0x9B, 0xCB, 0x25, 0xC9, 0xAD, 0xC1, 0x12, 0xB7, 0xCC, 0x9A, 0x93, 0xCA, 0xE4, 0x1F,
      0x32, 0x62] := by
  rw [digest_of_length_le (by decide)]
  decide +kernel

end WordLogic.Blake3
