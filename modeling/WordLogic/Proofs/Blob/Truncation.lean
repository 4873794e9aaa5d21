import WordLogic.Proofs.Blob.Fields
import WordLogic.Proofs.Blob.Steady

/-!
# Blobs that are cut off or continued

The length that a header states tells a reader how far to look. A blob that ends before is too short,
and the fault says how many bytes a reader waits for; once there are as many, further bytes change
nothing. A payload tells its end too: a header that states fewer bytes than it has is not believed,
and one that states more leads to the same set.

* `decode_take`: what is made of the first bytes of a blob.
* `decode_append`: an answer other than that bytes are missing stays when more bytes come.
* `decode_part`, `decode_continued`: a payload that is cut off or continued under a header of its own.
-/

namespace WordLogic.Blob

/-- A field is the same in bytes that are continued. -/
theorem field_append {start count : Nat} {bytes : List UInt8} (h : start + count ≤ bytes.length)
    (more : List UInt8) : field start count (bytes ++ more) = field start count bytes := by
  rw [field, field, List.drop_append_of_le_length (by omega), List.take_append_of_le_length]
  rw [List.length_drop]
  omega

/-- A field is the same in bytes that are cut off behind it. -/
theorem field_take {start count n : Nat} {bytes : List UInt8} (h : start + count ≤ n)
    (hn : n ≤ bytes.length) : field start count (bytes.take n) = field start count bytes := by
  have hlength : start + count ≤ (bytes.take n).length := by
    rw [List.length_take]
    omega
  conv => rhs; rw [← List.take_append_drop n bytes]
  exact (field_append hlength _).symm

theorem decode_of_length_lt {bytes : List UInt8} (h : bytes.length < headerLength) :
    decode bytes = .error (.tooShort headerLength bytes.length) := by
  rw [decode, payloadBytes, decodeHeader, if_pos h]

/-- The number of bytes that a reader waits for who sees the first `n` of `length`: the header tells
it. -/
def awaited (n length : Nat) : Nat := if n < headerLength then headerLength else length

/-- The first bytes of a blob are too short. -/
theorem decode_take {blob payload : List UInt8} (h : WellStated blob payload) {n : Nat}
    (hn : n < blob.length) :
    decode (blob.take n) = .error (.tooShort (awaited n blob.length) n) := by
  have hlength : (blob.take n).length = n := by
    rw [List.length_take]
    omega
  by_cases hheader : n < headerLength
  · rw [awaited, if_pos hheader, decode_of_length_lt (by rwa [hlength]), hlength]
  have hfield {start count : Nat} (hend : start + count ≤ headerLength) :
      field start count (blob.take n) = field start count blob :=
    field_take (by omega) (Nat.le_of_lt hn)
  have hmagic : field 0 4 (blob.take n) = magic := by
    rw [hfield (by decide), h.magic_eq]
  have hversion : statedVersion (blob.take n) = version := by
    rw [statedVersion, hfield (by decide)]
    exact h.version_eq
  have hstated : headerLength + statedLength (blob.take n) = blob.length := by
    rw [statedLength, hfield (by decide), h.length_eq, ← h.statedLength_eq, statedLength]
  rw [awaited, if_neg hheader, decode_of_length (by omega), hstated, hlength,
    if_neg (not_not_intro hmagic), if_neg (not_not_intro hversion), if_pos hn]

/-- More bytes do not change an answer, unless it is that bytes are missing. -/
theorem decode_append {bytes : List UInt8}
    (h : ∀ needed found, decode bytes ≠ .error (.tooShort needed found)) (more : List UInt8) :
    decode (bytes ++ more) = decode bytes := by
  have hheader : headerLength ≤ bytes.length := by
    refine Nat.le_of_not_lt fun hlt => ?_
    exact h _ _ (decode_of_length_lt hlt)
  have hlength : (bytes ++ more).length = bytes.length + more.length := List.length_append
  have hfield {start count : Nat} (hend : start + count ≤ headerLength) :
      field start count (bytes ++ more) = field start count bytes :=
    field_append (Nat.le_trans hend hheader) more
  have hversion : statedVersion (bytes ++ more) = statedVersion bytes := by
    rw [statedVersion, hfield (by decide), statedVersion]
  have hstated : statedLength (bytes ++ more) = statedLength bytes := by
    rw [statedLength, hfield (by decide), statedLength]
  have hsum : statedChecksum (bytes ++ more) = statedChecksum bytes := hfield (by decide)
  rw [decode_of_length hheader] at h ⊢
  rw [decode_of_length (by omega), hfield (by decide), hversion, hstated, hsum]
  by_cases hmagic : field 0 4 bytes ≠ magic
  · rw [if_pos hmagic, if_pos hmagic]
  by_cases hother : statedVersion bytes ≠ version
  · rw [if_neg hmagic, if_neg hmagic, if_pos hother, if_pos hother]
  rw [if_neg hmagic, if_neg hother] at h
  -- the announced payload is there, or else the answer would be that bytes are missing
  have hall : headerLength + statedLength bytes ≤ bytes.length := by
    refine Nat.le_of_not_lt fun hlt => ?_
    rw [if_pos hlt] at h
    exact h _ _ rfl
  have hlonger : ¬(bytes ++ more).length < headerLength + statedLength bytes := by omega
  have hpayload : announced (bytes ++ more) = announced bytes := by
    rw [announced, hstated, field_append hall, announced]
  rw [if_neg hmagic, if_neg hmagic, if_neg hother, if_neg hother, if_neg hlonger,
    if_neg (Nat.not_lt.2 hall), hpayload]

/-- **Bytes that come later change no answer.** The first bytes of a blob, fewer than it has, are too
short: a reader waits for a header first, and then for the whole blob. Any other answer to any bytes
stays the same when more bytes follow them. -/
theorem decode_cut_or_continued :
    (∀ (rs : RuleSet) (source : Option String) (blob : List UInt8), encode rs source = .ok blob →
      ∀ n < blob.length, decode (blob.take n) = .error (.tooShort (awaited n blob.length) n)) ∧
    ∀ bytes more : List UInt8, (∀ needed found, decode bytes ≠ .error (.tooShort needed found)) →
      decode (bytes ++ more) = decode bytes :=
  ⟨fun _ _ _ h _ hn => decode_take (encode_wellStated h).2 hn,
    fun _ more h => decode_append h more⟩

/-- The blob of a set of one rule without its last byte, and with two more bytes. -/
theorem decode_cut_or_continued_shared :
    ∃ rs blob, (RuleSet.build [⟨2, -1, "(&a | &b) !#0"⟩]).value = .ok rs ∧
      encode rs none = .ok blob ∧ headerLength < blob.length ∧
      decode (blob.take 7) = .error (.tooShort 32 7) ∧
      decode (blob.take (blob.length - 1)) = .error (.tooShort blob.length (blob.length - 1)) ∧
      decode (blob ++ [0x57, 0xFF]) = .ok ⟨rs.entries, none⟩ := by
  obtain ⟨rs, hrs, hshort⟩ := exists_built_short
  have hblob := encode_eq_ok (hshort none)
  have hlength := (encode_wellStated hblob).2.length_eq
  have hpayload : 1 ≤ (payloadOf rs none).encode.length := by
    rw [Payload.encode, List.length_append]
    exact Nat.le_add_left_of_le (length_encodeList_pos ..)
  have hdecode := decode_of_encode (RuleSet.Reachable.built hrs).wellFormed hblob
  obtain ⟨hcut, hcontinued⟩ := decode_cut_or_continued
  refine ⟨rs, _, hrs, hblob, by omega, ?_, ?_, ?_⟩
  · exact hcut rs none _ hblob 7 (by rw [hlength, headerLength]; omega)
  · have hlast := hcut rs none _ hblob _ (Nat.sub_one_lt (by omega))
    rwa [awaited, if_neg (by omega)] at hlast
  · rw [hcontinued _ _ fun needed found he => by rw [hdecode] at he; cases he]
    exact hdecode

/-! ## Payloads under a header of their own -/

variable {rs : RuleSet} {source : Option String}

/-- A payload that is cut off ends too early, also when the header is right for what is left. -/
theorem decode_part (hrs : rs.WellFormed) (h : Addressable (payloadOf rs source).encode)
    {part blob : List UInt8} (hp : part <+: (payloadOf rs source).encode)
    (hne : part ≠ (payloadOf rs source).encode) (hblob : WellStated blob part) :
    ∃ missing, decode blob = .error (.payload (.ended missing)) := by
  have hread := Payload.reads_encode (check_payloadOf hrs source) h []
  rw [List.append_nil] at hread
  obtain ⟨missing, hended⟩ := steady_readPayload.ended hread hp hne
  refine ⟨missing, ?_⟩
  rw [hblob.decode_eq, ofPayload, Payload.decode, hended]
  rfl

/-- What follows a payload is ignored, also when the header counts it in. -/
theorem decode_continued (hrs : rs.WellFormed) {more blob : List UInt8}
    (hblob : WellStated blob ((payloadOf rs source).encode ++ more)) :
    Short (payloadOf rs source).encode ∧
      decode blob = .ok
        ⟨rs.entries, source.map fun text => Blake3.digest (Utf8.encode text.toList)⟩ := by
  have hcheck := check_payloadOf hrs source
  have hshort : Short (payloadOf rs source).encode := by
    have hall := hblob.short
    rw [Short, List.length_append] at hall
    exact Nat.lt_of_le_of_lt (Nat.le_add_right ..) hall
  refine ⟨hshort, ?_⟩
  rw [hblob.decode_eq, ofPayload, Payload.decode, Payload.reads_encode hcheck hshort.addressable]
  simp only [Except.map, hcheck]
  rfl

/-- **A payload tells where it ends.** Under a header that is right for a part of it that is cut off,
the bytes end too early, wherever the cut is. Under a header that is right for it together with any
bytes behind it, it gives the same set as the blob of its own. -/
theorem payload_tells_its_end (hrs : rs.Reachable) (source : Option String)
    (h : (payloadOf rs source).encode.length < 0x10000000000000000) :
    (∀ part blob : List UInt8, part <+: (payloadOf rs source).encode →
      part ≠ (payloadOf rs source).encode → WellStated blob part →
        ∃ missing, decode blob = .error (.payload (.ended missing))) ∧
    ∀ more blob : List UInt8, WellStated blob ((payloadOf rs source).encode ++ more) →
      ∃ own, encode rs source = .ok own ∧
        decode own = .ok
          ⟨rs.entries, source.map fun text => Blake3.digest (Utf8.encode text.toList)⟩ ∧
        decode blob = decode own := by
  constructor
  · intro part blob hp hne hblob
    exact decode_part hrs.wellFormed h hp hne hblob
  · intro more blob hblob
    obtain ⟨hshort, hd⟩ := decode_continued hrs.wellFormed hblob
    have hown := encode_eq_ok hshort
    have hdecode := decode_of_encode hrs.wellFormed hown
    exact ⟨_, hown, hdecode, hd.trans hdecode.symm⟩

/-- The payload of a set of one rule without its last byte, and with one more byte. -/
theorem payload_tells_its_end_shared :
    ∃ rs : RuleSet, ∃ payload own, (RuleSet.build [⟨2, -1, "(&a | &b) !#0"⟩]).value = .ok rs ∧
      payload = (payloadOf rs (some "text")).encode ∧ payload.length < 0x10000000000000000 ∧
      payload.dropLast ≠ payload ∧
      WellStated (encodeHeader payload.dropLast ++ payload.dropLast) payload.dropLast ∧
      (∃ missing, decode (encodeHeader payload.dropLast ++ payload.dropLast) =
        .error (.payload (.ended missing))) ∧
      WellStated (encodeHeader (payload ++ [7]) ++ (payload ++ [7])) (payload ++ [7]) ∧
      encode rs (some "text") = .ok own ∧
      decode (encodeHeader (payload ++ [7]) ++ (payload ++ [7])) = decode own := by
  obtain ⟨rs, hrs, hsmall⟩ := exists_built_small
  have hlength := hsmall (some "text")
  have hpos : 1 ≤ (payloadOf rs (some "text")).encode.length := by
    rw [Payload.encode, List.length_append]
    exact Nat.le_add_left_of_le (length_encodeList_pos ..)
  have hne : (payloadOf rs (some "text")).encode.dropLast ≠ (payloadOf rs (some "text")).encode := by
    intro he
    have hlast := congrArg List.length he
    rw [List.length_dropLast] at hlast
    omega
  have hpart : WellStated _ (payloadOf rs (some "text")).encode.dropLast :=
    encodeHeader_wellStated (by rw [Short, List.length_dropLast]; omega)
  have hmore : WellStated _ ((payloadOf rs (some "text")).encode ++ [7]) :=
    encodeHeader_wellStated (by rw [Short, List.length_append, List.length_singleton]; omega)
  obtain ⟨hcut, hcontinued⟩ := payload_tells_its_end (.built hrs) (some "text")
    (Nat.lt_trans hlength (by decide))
  obtain ⟨own, hown, -, hsame⟩ := hcontinued [7] _ hmore
  exact ⟨rs, _, own, hrs, rfl, Nat.lt_trans hlength (by decide), hne, hpart,
    hcut _ _ (List.dropLast_prefix _) hne hpart, hmore, hown, hsame⟩

end WordLogic.Blob
