import WordLogic.Blob.Number

/-!
# What a reader takes

`Reads r bytes x` says that the reader `r` takes exactly `bytes` and makes `x` of them, whatever
stands after them. A reader that is put together from others reads the bytes of its parts one after
the other (`Reads.bind`), so a field is read back when its parts are.

* `Reads.many`: items of any number, one after the other.
* `reads_encode`: a number that its kind allows, in its shortest form.
* `reads_encodeSigned`: a signed number.
-/

namespace WordLogic.Blob

/-- The reader takes the bytes and gives the value, whatever follows them. -/
def Reads {α : Type} (r : Reader α) (bytes : List UInt8) (x : α) : Prop :=
  ∀ rest, r.run (bytes ++ rest) = .ok (x, rest)

section Combinators

variable {α β : Type} {r : Reader α} {bs cs : List UInt8} {x : α} {y : β}

theorem reads_pure (x : α) : Reads (pure x) [] x := fun _ => rfl

/-- What a reader and the next one take together. -/
theorem Reads.bind {f : α → Reader β} (h : Reads r bs x) (hf : Reads (f x) cs y) :
    Reads (r >>= f) (bs ++ cs) y := by
  intro rest
  rw [StateT.run_bind, List.append_assoc, h]
  exact hf rest

/-- A reader whose value settles the result is the last one to take bytes. -/
theorem Reads.last {f : α → Reader β} (h : Reads r bs x) (hf : f x = pure y) :
    Reads (r >>= f) bs y := by
  have hnone : Reads (f x) [] y := by
    rw [hf]
    exact reads_pure y
  have hb := h.bind hnone
  rwa [List.append_nil] at hb

theorem Reads.map (f : α → β) (h : Reads r bs x) : Reads (r >>= fun a => pure (f a)) bs (f x) :=
  h.last rfl

theorem reads_byte (b : UInt8) : Reads Reader.byte [b] b := fun _ => rfl

theorem split_append (bs rest : List UInt8) :
    Reader.split bs.length (bs ++ rest) = .ok (bs, rest) := by
  induction bs with
  | nil => rfl
  | cons b bs ih => rw [List.length_cons, List.cons_append, Reader.split, ih]

theorem reads_bytes {bs : List UInt8} {n : Nat} (h : bs.length = n) :
    Reads (Reader.bytes n) bs bs := by
  subst h
  intro rest
  show Reader.bytes bs.length (bs ++ rest) = _
  rw [Reader.bytes, split_append]

/-- Items that are read each by itself are read one after the other. -/
theorem Reads.many {item : Reader α} {encode : α → List UInt8} {xs : List α}
    (h : ∀ x ∈ xs, Reads item (encode x) x) :
    Reads (Reader.many item xs.length) (xs.flatMap encode) xs := by
  induction xs with
  | nil => exact reads_pure []
  | cons x xs ih =>
    obtain ⟨hx, hxs⟩ := List.forall_mem_cons.1 h
    rw [List.flatMap_cons]
    exact hx.bind ((ih hxs).map (x :: ·))

theorem reads_row : {n : Nat} → (v : Vector UInt8 n) → Reads (Reader.row n) v.toList v
  | 0, v => by
    obtain rfl : v = #v[] := Vector.eq_empty
    exact reads_pure _
  | n + 1, v => by
    have hv : v = v.pop.push v.back := (Vector.push_pop_back v).symm
    rw [hv, Vector.toList_push]
    exact (reads_row v.pop).bind ((reads_byte v.back).map v.pop.push)

end Combinators

/-! ## Numbers -/

/-- The numbers of a kind are below this one. -/
def NumberKind.bound (kind : NumberKind) : Nat :=
  if kind.isWide then 0x10000000000000000 else 0x100000000

namespace Number

/-- A number in the given count of bytes. -/
theorem reads_littleEndian {count n : Nat} (h : n < LittleEndian.bound count) :
    Reads (Reader.bytes count >>= fun bs => pure (LittleEndian.decode bs))
      (LittleEndian.encode count n) n := by
  have hr := (reads_bytes (LittleEndian.length_encode count n)).map LittleEndian.decode
  rwa [LittleEndian.decode_encode h] at hr

/-- A reader that first looks at all that is left. -/
theorem reads_get {α : Type} {f : List UInt8 → Reader α} {bs : List UInt8} {x : α}
    (h : ∀ left, Reads (f left) bs x) : Reads (get >>= f) bs x :=
  fun rest => h (bs ++ rest) rest

/-- **A number is read back from its shortest form** by every reader whose kind allows it. -/
theorem reads_encode {kind : NumberKind} {n : Nat} (h : n < kind.bound) :
    Reads (decode kind) (encode n) n := by
  refine reads_get fun left => ?_
  by_cases h₁ : n < 251
  · have hn : n.toUInt8.toNat = n := Nat.mod_eq_of_lt (by omega)
    rw [encode, if_pos h₁]
    refine (reads_byte n.toUInt8).last ?_
    rw [hn, if_pos h₁]
  by_cases h₂ : n < 0x10000
  · rw [encode, if_neg h₁, if_pos h₂]
    exact (reads_byte 251).bind (reads_littleEndian h₂)
  by_cases h₃ : n < 0x100000000
  · rw [encode, if_neg h₁, if_neg h₂, if_pos h₃]
    exact (reads_byte 252).bind (reads_littleEndian h₃)
  -- only a wide kind allows a number of this size
  have hwide : kind.isWide = true := by
    rw [NumberKind.bound] at h
    split at h
    · assumption
    · exact absurd h h₃
  rw [NumberKind.bound, if_pos hwide] at h
  rw [encode, if_neg h₁, if_neg h₂, if_neg h₃]
  refine (reads_byte 253).bind ?_
  show Reads (if kind.isWide then _ else _) _ _
  rw [if_pos hwide]
  exact reads_littleEndian h

theorem unzigzag_zigzag (n : Int) : unzigzag (zigzag n) = n := by
  unfold unzigzag zigzag
  split <;> split <;> omega

theorem zigzag_lt (n : Int32) : zigzag n.toInt < NumberKind.signed.bound := by
  have hlow := n.le_toInt
  have hhigh := n.toInt_lt
  show _ < 0x100000000
  unfold zigzag
  split <;> omega

/-- Every signed number is read back. -/
theorem reads_encodeSigned (n : Int32) : Reads decodeSigned (encodeSigned n) n := by
  have hr := (reads_encode (zigzag_lt n)).map fun m => Int32.ofInt (unzigzag m)
  rwa [unzigzag_zigzag, Int32.ofInt_toInt] at hr

end Number

end WordLogic.Blob
