import WordLogic.Proofs.Blob.Fields

/-!
# Blobs with a changed byte

`ChangedAt i blob changed` says that the byte at `i` is another one, and nothing else. A field of the
header, or the payload, is another one then if it holds this byte, and the same if it does not
(`ChangedAt.field_ne`, `ChangedAt.field_eq`). `Detects` says what decoding makes of the change,
field by field; `changed_byte_detected` proves it of every blob of a reachable set.

Nothing is assumed of the hash: where a change can be missed, two different payloads have the same
checksum.
-/

namespace WordLogic.Blob

/-- There are as many bytes as before, and exactly the one at `i` is another. -/
structure ChangedAt (i : Nat) (bytes changed : List UInt8) : Prop where
  length_eq : changed.length = bytes.length
  differs : changed[i]? ≠ bytes[i]?
  agrees : ∀ j, j ≠ i → changed[j]? = bytes[j]?

theorem changedAt_set {bytes : List UInt8} {i : Nat} {b c : UInt8} (hc : bytes[i]? = some c)
    (hne : b ≠ c) : ChangedAt i bytes (bytes.set i b) := by
  obtain ⟨hi, -⟩ := List.getElem?_eq_some_iff.1 hc
  refine ⟨List.length_set, ?_, fun j hj => List.getElem?_set_ne (Ne.symm hj)⟩
  rw [List.getElem?_set_self hi, hc]
  exact fun he => hne (Option.some.inj he)

theorem getElem?_field {start count j : Nat} {bytes : List UInt8} (hj : j < count) :
    (field start count bytes)[j]? = bytes[start + j]? := by
  rw [field, List.getElem?_take_of_lt hj, List.getElem?_drop]

namespace ChangedAt

variable {blob changed payload : List UInt8} {i start count : Nat}

theorem lt_length (h : ChangedAt i blob changed) : i < blob.length := by
  apply Nat.lt_of_not_le
  intro hi
  apply h.differs
  rw [List.getElem?_eq_none hi, List.getElem?_eq_none (by rwa [h.length_eq])]

/-- A field without the changed byte is the same. -/
theorem field_eq (h : ChangedAt i blob changed) (hi : i < start ∨ start + count ≤ i) :
    field start count changed = field start count blob := by
  apply List.ext_getElem?
  intro j
  by_cases hj : j < count
  · rw [getElem?_field hj, getElem?_field hj]
    exact h.agrees _ (by omega)
  · rw [field, field, List.getElem?_take_eq_none (Nat.not_lt.1 hj),
      List.getElem?_take_eq_none (Nat.not_lt.1 hj)]

/-- A field with the changed byte is another one. -/
theorem field_ne (h : ChangedAt i blob changed) (hs : start ≤ i) (he : i < start + count) :
    field start count changed ≠ field start count blob := by
  intro hf
  have hbyte := congrArg (·[i - start]?) hf
  simp only [getElem?_field (show i - start < count by omega), Nat.add_sub_of_le hs] at hbyte
  exact h.differs hbyte

/-- The number in a field with the changed byte is another one. -/
theorem decode_field_ne (h : ChangedAt i blob changed) (hs : start ≤ i) (he : i < start + count)
    (hlength : start + count ≤ blob.length) :
    LittleEndian.decode (field start count changed) ≠
      LittleEndian.decode (field start count blob) := by
  refine mt (LittleEndian.decode_inj ?_) (h.field_ne hs he)
  rw [length_field (by rwa [h.length_eq]), length_field hlength]

/-! ## The fields one by one -/

theorem headerLength_le (h : ChangedAt i blob changed) (hw : WellStated blob payload) :
    headerLength ≤ changed.length := by
  rw [h.length_eq, hw.length_eq]
  exact Nat.le_add_right ..

theorem decode_magic (h : ChangedAt i blob changed) (hw : WellStated blob payload) (hi : i < 4) :
    decode changed = .error .noMagic := by
  have hmagic : field 0 4 changed ≠ magic := by
    rw [← hw.magic_eq]
    exact h.field_ne (Nat.zero_le i) hi
  rw [decode_of_length (h.headerLength_le hw), if_pos hmagic]

theorem decode_version (h : ChangedAt i blob changed) (hw : WellStated blob payload) (hs : 4 ≤ i)
    (he : i < 6) :
    statedVersion changed ≠ version ∧
      decode changed = .error (.otherVersion (statedVersion changed)) := by
  have hlength := h.headerLength_le hw
  have hmagic : field 0 4 changed = magic := by
    rw [h.field_eq (.inr hs), hw.magic_eq]
  have hversion : statedVersion changed ≠ version := by
    rw [← hw.version_eq]
    refine h.decode_field_ne hs he ?_
    rw [← h.length_eq]
    exact Nat.le_trans (by decide) hlength
  refine ⟨hversion, ?_⟩
  rw [decode_of_length hlength, if_neg (not_not_intro hmagic), if_pos hversion]

/-- A change behind the version is seen by the tests of length and checksum, or not at all. -/
theorem decode_after_version (h : ChangedAt i blob changed) (hw : WellStated blob payload)
    (hi : 6 ≤ i) :
    decode changed =
      if changed.length < headerLength + statedLength changed then
        .error (.tooShort (headerLength + statedLength changed) changed.length)
      else if checksum (announced changed) ≠ statedChecksum changed then .error .wrongChecksum
      else ofPayload (announced changed) := by
  have hmagic : field 0 4 changed = magic := by
    rw [h.field_eq (.inr (by omega)), hw.magic_eq]
  have hversion : statedVersion changed = version := by
    rw [statedVersion, h.field_eq (.inr hi)]
    exact hw.version_eq
  rw [decode_of_length (h.headerLength_le hw), if_neg (not_not_intro hmagic),
    if_neg (not_not_intro hversion)]

/-- Where the stated length is that of bytes at hand, the checksum decides. -/
theorem decode_eq_wrongChecksum_iff (h : ChangedAt i blob changed) (hw : WellStated blob payload)
    (hi : 6 ≤ i) (hlength : headerLength + statedLength changed ≤ changed.length) :
    decode changed = .error .wrongChecksum ↔
      checksum (announced changed) ≠ statedChecksum changed := by
  rw [h.decode_after_version hw hi, if_neg (Nat.not_lt.2 hlength)]
  by_cases hsum : checksum (announced changed) ≠ statedChecksum changed
  · rw [if_pos hsum]
    exact iff_of_true rfl hsum
  · rw [if_neg hsum]
    exact iff_of_false (ofPayload_ne_wrongChecksum _) hsum

theorem statedLength_eq (h : ChangedAt i blob changed) (hw : WellStated blob payload)
    (hi : i < 12 ∨ 16 ≤ i) : statedLength changed = payload.length := by
  rw [statedLength, h.field_eq hi]
  exact hw.statedLength_eq

/-- The checksum of the payload before the change is still stated. -/
theorem statedChecksum_eq (h : ChangedAt i blob changed) (hw : WellStated blob payload)
    (hi : i < 16 ∨ 32 ≤ i) : statedChecksum changed = checksum payload := by
  rw [statedChecksum, h.field_eq hi]
  exact hw.statedChecksum_eq

theorem announced_eq (h : ChangedAt i blob changed) (hw : WellStated blob payload)
    (hi : i < 12 ∨ 16 ≤ i ∧ i < 32) : announced changed = payload := by
  have hlength : statedLength changed = statedLength blob := by
    rw [h.statedLength_eq hw (by omega), hw.statedLength_eq]
  have hplace : i < headerLength ∨ headerLength + statedLength blob ≤ i := .inl (by
    rw [headerLength]
    omega)
  rw [announced, hlength, h.field_eq hplace]
  exact hw.announced_eq

/-- The bytes at hand are still those that are announced. -/
theorem length_announced (h : ChangedAt i blob changed) (hw : WellStated blob payload)
    (hi : i < 12 ∨ 16 ≤ i) : headerLength + statedLength changed = changed.length := by
  rw [h.statedLength_eq hw hi, h.length_eq, hw.length_eq]

theorem decode_unread (h : ChangedAt i blob changed) (hw : WellStated blob payload) (hs : 6 ≤ i)
    (he : i < 12) : decode changed = decode blob := by
  have hlength := h.length_announced hw (.inl he)
  have hsum := h.statedChecksum_eq hw (.inl (by omega))
  have hpayload := h.announced_eq hw (.inl he)
  rw [h.decode_after_version hw hs, if_neg (by omega), hpayload, hsum,
    if_neg (not_not_intro rfl), hw.decode_eq]

theorem decode_checksum (h : ChangedAt i blob changed) (hw : WellStated blob payload)
    (hs : 16 ≤ i) (he : i < 32) : decode changed = .error .wrongChecksum := by
  have hlength := h.length_announced hw (.inr hs)
  rw [h.decode_eq_wrongChecksum_iff hw (by omega) (Nat.le_of_eq hlength),
    h.announced_eq hw (.inr ⟨hs, he⟩), ← hw.statedChecksum_eq]
  exact (h.field_ne hs he).symm

/-- A payload is stated to be longer or shorter than it is. When it is said to be shorter, a part of
it is tested. -/
theorem announced_shorter (h : ChangedAt i blob changed) (hw : WellStated blob payload)
    (hs : 12 ≤ i) (he : i < 16) (hlength : headerLength + statedLength changed ≤ changed.length) :
    announced changed = payload.take (statedLength changed) ∧
      statedLength changed < payload.length := by
  have hblob : 12 + 4 ≤ blob.length := by
    rw [hw.length_eq, headerLength]
    omega
  have hne : statedLength changed ≠ statedLength blob := h.decode_field_ne hs he hblob
  rw [hw.statedLength_eq] at hne
  rw [h.length_eq, hw.length_eq] at hlength
  constructor
  · rw [announced, h.field_eq (.inl (by rw [headerLength]; omega)), field, hw.payload_eq]
  · omega

theorem announced_ne (h : ChangedAt i blob changed) (hw : WellStated blob payload)
    (hi : 32 ≤ i) : announced changed ≠ payload := by
  have hlt := h.lt_length
  have hlength : statedLength changed = statedLength blob := by
    rw [h.statedLength_eq hw (.inr (by omega)), hw.statedLength_eq]
  rw [hw.length_eq, ← hw.statedLength_eq] at hlt
  rw [← hw.announced_eq, announced, hlength]
  exact h.field_ne hi hlt

end ChangedAt

/-! ## Every change -/

/-- The digests of the two payloads begin with the same sixteen bytes, which are all that a header
holds of a digest. -/
def SameChecksum (payload payload' : List UInt8) : Prop :=
  (Blake3.digest payload).toList.take 16 = (Blake3.digest payload').toList.take 16

theorem sameChecksum_iff {payload payload' : List UInt8} :
    SameChecksum payload payload' ↔ checksum payload = checksum payload' := by
  rw [SameChecksum, checksum, checksum]

/-- What decoding says of a blob in which the byte at `i` was changed, by the field of the byte. -/
structure Detects (blob changed : List UInt8) (i : Nat) : Prop where
  atMagic : i < 4 → decode changed = .error .noMagic
  atVersion : 4 ≤ i → i < 6 → statedVersion changed ≠ version ∧
    decode changed = .error (.otherVersion (statedVersion changed))
  /-- The version of the writer and the bytes without use are not looked at. -/
  atUnread : 6 ≤ i → i < 12 → decode changed = decode blob
  atLength_longer : 12 ≤ i → i < 16 → changed.length < headerLength + statedLength changed →
    decode changed = .error (.tooShort (headerLength + statedLength changed) changed.length)
  /-- A part of the payload is tested against the checksum of the whole. -/
  atLength_shorter : 12 ≤ i → i < 16 → headerLength + statedLength changed ≤ changed.length →
    announced changed = (announced blob).take (statedLength changed) ∧
    statedLength changed < (announced blob).length ∧
    (decode changed = .error .wrongChecksum ↔
      (Blake3.digest (announced changed)).toList.take 16 ≠ statedChecksum blob)
  atChecksum : 16 ≤ i → i < 32 → decode changed = .error .wrongChecksum
  atPayload : 32 ≤ i → announced changed = changed.drop headerLength ∧
    announced changed ≠ announced blob ∧
    (decode changed = .error .wrongChecksum ↔
      ¬SameChecksum (announced changed) (announced blob))
  /-- A change that is accepted is in bytes that are not looked at, or a collision. -/
  accepted : ∀ restored, decode changed = .ok restored → (6 ≤ i ∧ i < 12) ∨
    (announced changed ≠ announced blob ∧ SameChecksum (announced changed) (announced blob))

namespace ChangedAt

variable {blob changed payload : List UInt8} {i : Nat}

/-- A length that is stated wrong is too long, or the checksum decides on a part of the payload. -/
theorem decode_length_iff (h : ChangedAt i blob changed) (hw : WellStated blob payload)
    (hs : 12 ≤ i) (he : i < 16)
    (hlength : headerLength + statedLength changed ≤ changed.length) :
    decode changed = .error .wrongChecksum ↔ ¬SameChecksum (announced changed) payload := by
  rw [h.decode_eq_wrongChecksum_iff hw (by omega) hlength, h.statedChecksum_eq hw (.inl he),
    sameChecksum_iff]

theorem decode_payload_iff (h : ChangedAt i blob changed) (hw : WellStated blob payload)
    (hi : 32 ≤ i) :
    decode changed = .error .wrongChecksum ↔ ¬SameChecksum (announced changed) payload := by
  have hlength := h.length_announced hw (.inr (by omega))
  rw [h.decode_eq_wrongChecksum_iff hw (by omega) (Nat.le_of_eq hlength),
    h.statedChecksum_eq hw (.inr hi), sameChecksum_iff]

/-- What is accepted has the checksum of the payload before the change. -/
theorem collision_of_decode (h : ChangedAt i blob changed) (hw : WellStated blob payload)
    {restored : RuleSet} (hd : decode changed = .ok restored) :
    (6 ≤ i ∧ i < 12) ∨
      (announced changed ≠ payload ∧ SameChecksum (announced changed) payload) := by
  have accepted_of_iff (hiff : decode changed = .error .wrongChecksum ↔
      ¬SameChecksum (announced changed) payload) : SameChecksum (announced changed) payload := by
    refine Classical.byContradiction fun hne => ?_
    rw [hiff.2 hne] at hd
    cases hd
  rcases Nat.lt_or_ge i 4 with h4 | h4
  · rw [h.decode_magic hw h4] at hd
    cases hd
  rcases Nat.lt_or_ge i 6 with h6 | h6
  · rw [(h.decode_version hw h4 h6).2] at hd
    cases hd
  rcases Nat.lt_or_ge i 12 with h12 | h12
  · exact .inl ⟨h6, h12⟩
  rcases Nat.lt_or_ge i 16 with h16 | h16
  · by_cases hlength : headerLength + statedLength changed ≤ changed.length
    · obtain ⟨hpart, hlt⟩ := h.announced_shorter hw h12 h16 hlength
      refine .inr ⟨fun he => ?_, accepted_of_iff (h.decode_length_iff hw h12 h16 hlength)⟩
      have hlen := congrArg List.length (hpart.symm.trans he)
      rw [List.length_take] at hlen
      omega
    · rw [h.decode_after_version hw h6, if_pos (Nat.lt_of_not_le hlength)] at hd
      cases hd
  rcases Nat.lt_or_ge i 32 with h32 | h32
  · rw [h.decode_checksum hw h16 h32] at hd
    cases hd
  · exact .inr ⟨h.announced_ne hw h32, accepted_of_iff (h.decode_payload_iff hw h32)⟩

theorem detects (h : ChangedAt i blob changed) (hw : WellStated blob payload) :
    Detects blob changed i where
  atMagic := h.decode_magic hw
  atVersion := h.decode_version hw
  atUnread := h.decode_unread hw
  atLength_longer hs _ hlength := by
    rw [h.decode_after_version hw (by omega), if_pos hlength]
  atLength_shorter hs he hlength := by
    rw [hw.announced_eq, hw.checksum_eq]
    obtain ⟨hpart, hlt⟩ := h.announced_shorter hw hs he hlength
    exact ⟨hpart, hlt, h.decode_length_iff hw hs he hlength⟩
  atChecksum := h.decode_checksum hw
  atPayload hi := by
    rw [hw.announced_eq]
    refine ⟨?_, h.announced_ne hw hi, h.decode_payload_iff hw hi⟩
    have hlength := h.length_announced hw (.inr (by omega))
    rw [announced, field]
    apply List.take_of_length_le
    rw [List.length_drop]
    omega
  accepted restored hd := by
    rw [hw.announced_eq]
    exact h.collision_of_decode hw hd

end ChangedAt

/-- **A changed byte is detected.** The blob of a reachable set gives the set back; when one of its
bytes is changed, decoding says which field is wrong. Only bytes that are not looked at can be
changed without notice, unless the changed payload has the checksum of the original one. -/
theorem changed_byte_detected {rs : RuleSet} (hrs : rs.Reachable) {source : Option String}
    {blob changed : List UInt8} (hb : encode rs source = .ok blob) {i : Nat}
    (hc : ChangedAt i blob changed) :
    decode blob = .ok
      ⟨rs.entries, source.map fun text => Blake3.digest (Utf8.encode text.toList)⟩ ∧
    Detects blob changed i :=
  ⟨decode_of_encode hrs.wellFormed hb, hc.detects (encode_wellStated hb).2⟩

/-- The version of the format is changed in the blob of a set of one rule. -/
theorem changed_byte_detected_version :
    ∃ rs blob, (RuleSet.build [⟨2, -1, "(&a | &b) !#0"⟩]).value = .ok rs ∧
      encode rs none = .ok blob ∧ ChangedAt 4 blob (blob.set 4 7) ∧
      decode (blob.set 4 7) = .error (.otherVersion 7) := by
  obtain ⟨rs, hrs, hshort⟩ := exists_built_short
  have hblob := encode_eq_ok (hshort none)
  have hold : (encodeHeader (payloadOf rs none).encode ++ (payloadOf rs none).encode)[4]? =
      some 1 := rfl
  have hchanged := changedAt_set hold (by decide : (7 : UInt8) ≠ 1)
  obtain ⟨-, hdetects⟩ := changed_byte_detected (.built hrs) hblob hchanged
  exact ⟨rs, _, hrs, hblob, hchanged, (hdetects.atVersion (by decide) (by decide)).2⟩

end WordLogic.Blob
