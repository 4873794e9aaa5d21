import WordLogic.Text.Utf8

/-!
# Texts read back from their bytes

* `encodeChar_cons`: the bytes of a character are a first byte that says how many are to follow, and
  bytes that `readRest` puts together to the character's number again.
* `decode_encode`: a text is read back from its bytes.
-/

namespace WordLogic.Utf8

theorem toNat_toUInt8 {n : Nat} (h : n < 0x100) : n.toUInt8.toNat = n :=
  Nat.mod_eq_of_lt h

/-- A byte in its range goes into the number. -/
theorem readRest_cons {k low high bits read x : Nat} (rest : List UInt8) (hx : x < 0x100)
    (hlow : low ≤ x) (hhigh : x ≤ high) :
    readRest (k + 1) low high bits read (x.toUInt8 :: rest) =
      readRest k 0x80 0xBF (bits * 0x40 + (x - 0x80)) (read + 1) rest := by
  rw [readRest, toNat_toUInt8 hx, if_pos ⟨hlow, hhigh⟩]

/-- A number that has all its bytes is the result. -/
theorem readRest_zero {low high bits read n : Nat} (rest : List UInt8) (h : bits = n) :
    readRest 0 low high bits read rest = .ok (n, rest) := by
  rw [readRest, h]

/-- The number of a character is no surrogate. -/
theorem toNat_range (c : Char) :
    c.toNat < 0xD800 ∨ 0xDFFF < c.toNat ∧ c.toNat < 0x110000 :=
  c.valid

/-! ## First bytes -/

theorem lead?_two {b : Nat} (h : 0xC2 ≤ b) (h' : b < 0xE0) :
    lead? b = some ⟨1, 0x80, 0xBF, b - 0xC0⟩ := by
  unfold lead?
  rw [if_neg (by omega), if_neg (by omega), if_pos h']

/-- In a character of three bytes the second one excludes what two bytes could say and the
surrogates. -/
theorem lead?_three {n : Nat} (h : 0x800 ≤ n) (h' : n < 0x10000)
    (hs : n < 0xD800 ∨ 0xDFFF < n) :
    ∃ low high, lead? (0xE0 + n / 0x1000) = some ⟨2, low, high, n / 0x1000⟩ ∧
      low ≤ 0x80 + n / 0x40 % 0x40 ∧ 0x80 + n / 0x40 % 0x40 ≤ high := by
  unfold lead?
  rw [if_neg (by omega), if_neg (by omega), if_neg (by omega)]
  split
  · exact ⟨0xA0, 0xBF, by rw [show n / 0x1000 = 0 by omega], by omega, by omega⟩
  split
  · exact ⟨0x80, 0x9F, by rw [show n / 0x1000 = 0xD by omega], by omega, by omega⟩
  rw [if_pos (by omega)]
  exact ⟨0x80, 0xBF, by rw [Nat.add_sub_cancel_left], by omega, by omega⟩

/-- In a character of four bytes the second one excludes what three bytes could say and the numbers
past the last character. -/
theorem lead?_four {n : Nat} (h : 0x10000 ≤ n) (h' : n < 0x110000) :
    ∃ low high, lead? (0xF0 + n / 0x40000) = some ⟨3, low, high, n / 0x40000⟩ ∧
      low ≤ 0x80 + n / 0x1000 % 0x40 ∧ 0x80 + n / 0x1000 % 0x40 ≤ high := by
  unfold lead?
  rw [if_neg (by omega), if_neg (by omega), if_neg (by omega), if_neg (by omega),
    if_neg (by omega), if_neg (by omega)]
  split
  · exact ⟨0x90, 0xBF, by rw [show n / 0x40000 = 0 by omega], by omega, by omega⟩
  split
  · exact ⟨0x80, 0xBF, by rw [Nat.add_sub_cancel_left], by omega, by omega⟩
  rw [if_pos (by omega)]
  exact ⟨0x80, 0x8F, by rw [show n / 0x40000 = 4 by omega], by omega, by omega⟩

/-! ## Characters and texts -/

/-- **The bytes of a character.** The first one is a lead, and the others are the rest it asks
for. -/
theorem encodeChar_cons (c : Char) :
    ∃ b bs l, encodeChar c = b :: bs ∧ lead? b.toNat = some l ∧
      ∀ rest, readRest l.following l.low l.high l.bits 1 (bs ++ rest) = .ok (c.toNat, rest) := by
  have hc := toNat_range c
  unfold encodeChar
  generalize c.toNat = n at *
  simp only
  split
  · refine ⟨_, [], ⟨0, 0, 0, n⟩, rfl, ?_, fun rest => rfl⟩
    rw [toNat_toUInt8 (by omega), lead?, if_pos ‹_›]
  split
  · refine ⟨_, [_], ⟨1, 0x80, 0xBF, n / 0x40⟩, rfl, ?_, fun rest => ?_⟩
    · rw [toNat_toUInt8 (by omega), lead?_two (by omega) (by omega), Nat.add_sub_cancel_left]
    · show readRest 1 0x80 0xBF (n / 0x40) 1 _ = _
      rw [List.singleton_append, readRest_cons rest (by omega) (by omega) (by omega)]
      exact readRest_zero rest (by omega)
  split
  · obtain ⟨low, high, hl, hlow, hhigh⟩ := lead?_three (n := n) (by omega) (by omega) (by omega)
    refine ⟨_, [_, _], ⟨2, low, high, n / 0x1000⟩, rfl, ?_, fun rest => ?_⟩
    · rwa [toNat_toUInt8 (by omega)]
    · show readRest 2 low high (n / 0x1000) 1 _ = _
      rw [List.cons_append, List.singleton_append, readRest_cons _ (by omega) hlow hhigh,
        readRest_cons _ (by omega) (by omega) (by omega)]
      exact readRest_zero rest (by omega)
  · obtain ⟨low, high, hl, hlow, hhigh⟩ := lead?_four (n := n) (by omega) (by omega)
    refine ⟨_, [_, _, _], ⟨3, low, high, n / 0x40000⟩, rfl, ?_, fun rest => ?_⟩
    · rwa [toNat_toUInt8 (by omega)]
    · show readRest 3 low high (n / 0x40000) 1 _ = _
      rw [List.cons_append, List.cons_append, List.singleton_append,
        readRest_cons _ (by omega) hlow hhigh, readRest_cons _ (by omega) (by omega) (by omega),
        readRest_cons _ (by omega) (by omega) (by omega)]
      exact readRest_zero rest (by omega)

theorem decodeFrom_cons {done n : Nat} {b : UInt8} {r rest : List UInt8} {l : Lead}
    (hl : lead? b.toNat = some l)
    (hr : readRest l.following l.low l.high l.bits 1 r = .ok (n, rest)) :
    decodeFrom done (b :: r) =
      match decodeFrom (done + 1 + l.following) rest with
      | .error e => .error e
      | .ok cs => .ok (Char.ofNat n :: cs) := by
  rw [decodeFrom, hl]
  simp only
  split
  · rename_i h
    rw [hr] at h
    cases h
  · rename_i h
    rw [hr] at h
    cases h
    rfl

theorem decodeFrom_encode (done : Nat) (cs : List Char) :
    decodeFrom done (encode cs) = .ok cs := by
  induction cs generalizing done with
  | nil =>
    unfold decodeFrom
    rfl
  | cons c cs ih =>
    obtain ⟨b, bs, l, hc, hl, hr⟩ := encodeChar_cons c
    rw [encode, List.flatMap_cons, hc, List.cons_append, decodeFrom_cons hl (hr _)]
    rw [← encode, ih, Char.ofNat_toNat]

/-- **A text is read back from its bytes.** -/
theorem decode_encode (cs : List Char) : decode (encode cs) = .ok cs :=
  decodeFrom_encode 0 cs

end WordLogic.Utf8
