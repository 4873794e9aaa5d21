import WordLogic.Proofs.Blob.RoundTrip

/-!
# Fields of a blob

What `Blob.decode` makes of bytes depends on the fields of the header, which stand at fixed places,
and on the payload that the header announces.

* `decode_of_length`: decoding as a sequence of tests on the fields.
* `WellStated`: the fields of a blob say what is true of its payload. `encode` writes such a blob
  (`encode_wellStated`), and decoding it gives the set back (`decode_of_encode`).
-/

namespace WordLogic

namespace LittleEndian

/-- Different bytes, as many on both sides, write different numbers. -/
theorem decode_inj {bs cs : List UInt8} (hlength : bs.length = cs.length)
    (h : decode bs = decode cs) : bs = cs := by
  induction bs generalizing cs with
  | nil => exact (List.length_eq_zero_iff.1 hlength.symm).symm
  | cons b bs ih =>
    cases cs with
    | nil => cases hlength
    | cons c cs =>
      have hb := b.toNat_lt
      have hc := c.toNat_lt
      simp only [decode] at h
      have hhead : b.toNat = c.toNat := by omega
      have htail : decode bs = decode cs := by omega
      rw [UInt8.toNat_inj.1 hhead, ih (Nat.succ.inj hlength) htail]

end LittleEndian

namespace Blob

/-! ## Places in a header -/

/-- So many bytes from a place on. -/
def field (start count : Nat) (bytes : List UInt8) : List UInt8 := (bytes.drop start).take count

theorem length_field {start count : Nat} {bytes : List UInt8} (h : start + count ≤ bytes.length) :
    (field start count bytes).length = count := by
  rw [field, List.length_take, List.length_drop]
  omega

/-- The version of the format that a blob states. -/
def statedVersion (bytes : List UInt8) : Nat := LittleEndian.decode (field 4 2 bytes)

/-- The length of the payload that a blob states. -/
def statedLength (bytes : List UInt8) : Nat := LittleEndian.decode (field 12 4 bytes)

/-- The checksum that a blob states. -/
def statedChecksum (bytes : List UInt8) : List UInt8 := field 16 16 bytes

/-- The payload that a blob announces. -/
def announced (bytes : List UInt8) : List UInt8 := field headerLength (statedLength bytes) bytes

theorem decodeHeader_of_length {bytes : List UInt8} (h : headerLength ≤ bytes.length) :
    decodeHeader bytes =
      if field 0 4 bytes ≠ magic then .error .noMagic
      else .ok (⟨statedVersion bytes, statedLength bytes, statedChecksum bytes⟩,
        bytes.drop headerLength) := by
  rw [decodeHeader, if_neg (Nat.not_lt.2 h)]
  rfl

/-- **Decoding tests the fields one after the other**: magic, version, length and checksum, and then
reads the payload that is announced. -/
theorem decode_of_length {bytes : List UInt8} (h : headerLength ≤ bytes.length) :
    decode bytes =
      if field 0 4 bytes ≠ magic then .error .noMagic
      else if statedVersion bytes ≠ version then .error (.otherVersion (statedVersion bytes))
      else if bytes.length < headerLength + statedLength bytes then
        .error (.tooShort (headerLength + statedLength bytes) bytes.length)
      else if checksum (announced bytes) ≠ statedChecksum bytes then .error .wrongChecksum
      else ofPayload (announced bytes) := by
  have hrest : (bytes.drop headerLength).length < statedLength bytes ↔
      bytes.length < headerLength + statedLength bytes := by
    rw [List.length_drop]
    omega
  have hpayload : (bytes.drop headerLength).take (statedLength bytes) = announced bytes := rfl
  rw [decode, payloadBytes, decodeHeader_of_length h]
  by_cases hmagic : field 0 4 bytes ≠ magic
  · simp only [if_pos hmagic]
  simp only [if_neg hmagic, hrest, hpayload]
  by_cases hversion : statedVersion bytes ≠ version
  · simp only [if_pos hversion]
  by_cases hlength : bytes.length < headerLength + statedLength bytes
  · simp only [if_neg hversion, if_pos hlength]
  by_cases hsum : checksum (announced bytes) ≠ statedChecksum bytes
  · simp only [if_neg hversion, if_neg hlength, if_pos hsum]
  · simp only [if_neg hversion, if_neg hlength, if_neg hsum]

/-- The payload itself is never the reason to name the checksum. -/
theorem ofPayload_ne_wrongChecksum (payload : List UInt8) :
    ofPayload payload ≠ .error .wrongChecksum := by
  unfold ofPayload
  split
  · exact nofun
  · split <;> exact nofun

/-! ## Blobs that are written -/

/-- The fields of the blob are right for the bytes after its header. -/
structure WellStated (blob payload : List UInt8) : Prop where
  length_eq : blob.length = headerLength + payload.length
  magic_eq : field 0 4 blob = magic
  version_eq : statedVersion blob = version
  statedLength_eq : statedLength blob = payload.length
  checksum_eq : statedChecksum blob = (Blake3.digest payload).toList.take 16
  payload_eq : blob.drop headerLength = payload

namespace WellStated

variable {blob payload : List UInt8}

/-- Four bytes state the length of the payload. -/
theorem short (h : WellStated blob payload) : Short payload := by
  have hfield : (field 12 4 blob).length = 4 := length_field (by
    rw [h.length_eq, headerLength]
    omega)
  have hlt := LittleEndian.decode_lt (field 12 4 blob)
  rw [hfield] at hlt
  rw [Short, ← h.statedLength_eq]
  exact hlt

/-- The first half of the digest is what a reader tests. -/
theorem statedChecksum_eq (h : WellStated blob payload) : statedChecksum blob = checksum payload :=
  h.checksum_eq

theorem announced_eq (h : WellStated blob payload) : announced blob = payload := by
  rw [announced, field, h.payload_eq, h.statedLength_eq, List.take_length]

theorem decode_eq (h : WellStated blob payload) : decode blob = ofPayload payload := by
  have hlength : headerLength ≤ blob.length := by
    rw [h.length_eq]
    exact Nat.le_add_right ..
  have hall : ¬ blob.length < headerLength + statedLength blob := by
    rw [h.length_eq, h.statedLength_eq]
    exact Nat.lt_irrefl _
  rw [decode_of_length hlength, h.announced_eq, if_neg (not_not_intro h.magic_eq),
    if_neg (not_not_intro h.version_eq), if_neg hall,
    if_neg (not_not_intro h.statedChecksum_eq.symm)]

end WellStated

/-- A header for a payload is right for it. -/
theorem encodeHeader_wellStated {payload : List UInt8} (h : Short payload) :
    WellStated (encodeHeader payload ++ payload) payload := by
  have hlength : (encodeHeader payload ++ payload).length = headerLength + payload.length := by
    rw [List.length_append, length_encodeHeader]
  have hheader := decodeHeader_encodeHeader h payload
  rw [decodeHeader_of_length (by omega)] at hheader
  split at hheader
  · cases hheader
  rename_i hmagic
  simp only [Except.ok.injEq, Prod.mk.injEq, Header.mk.injEq] at hheader
  obtain ⟨⟨hversion, hstated, hsum⟩, hdrop⟩ := hheader
  exact ⟨hlength, Decidable.not_not.1 hmagic, hversion, hstated, hsum, hdrop⟩

/-- What `encode` writes has right fields. -/
theorem encode_wellStated {rs : RuleSet} {source : Option String} {blob : List UInt8}
    (h : encode rs source = .ok blob) :
    Short (payloadOf rs source).encode ∧ WellStated blob (payloadOf rs source).encode := by
  simp only [encode] at h
  split at h
  · rename_i hshort
    cases h
    exact ⟨hshort, encodeHeader_wellStated hshort⟩
  · cases h

/-- The blob of a well-formed set is decoded to the entries of the set, with the digest of the source
that was stored. -/
theorem decode_of_encode {rs : RuleSet} (hrs : rs.WellFormed) {source : Option String}
    {blob : List UInt8} (h : encode rs source = .ok blob) :
    decode blob = .ok
      ⟨rs.entries, source.map fun text => Blake3.digest (Utf8.encode text.toList)⟩ := by
  obtain ⟨hshort, hstated⟩ := encode_wellStated h
  have hcheck := check_payloadOf hrs source
  rw [hstated.decode_eq, ofPayload, Payload.decode_encode hcheck hshort]
  simp only [hcheck]
  rfl

end Blob

end WordLogic
