import WordLogic.Proofs.Blob.Reads
import WordLogic.Proofs.RuleSet.Reachable
import WordLogic.Proofs.Text.Utf8

/-!
# Blobs read back

A payload that passes its check is read back from its bytes when eight bytes can state how many these
are (`Payload.reads_encode`): every number in it can then be written, because a count is at most the
number of the bytes that it counts, and an index is below a count. A reachable set passes the check,
so it is read back from its blob (`restore_encode`).
-/

namespace WordLogic.Blob

/-- A header can state the number of these bytes. -/
def Short (bytes : List UInt8) : Prop := bytes.length < 0x100000000

/-- Eight bytes can state the number of these bytes, as they can for all bytes in a memory. -/
def Addressable (bytes : List UInt8) : Prop := bytes.length < 0x10000000000000000

theorem Short.addressable {bytes : List UInt8} (h : Short bytes) : Addressable bytes :=
  Nat.lt_trans h (by decide)

section Addressable

variable {α : Type} {bs cs : List UInt8} {encode : α → List UInt8} {xs : List α} {x : α}

theorem Addressable.left (h : Addressable (bs ++ cs)) : Addressable bs := by
  rw [Addressable, List.length_append] at h
  exact Nat.lt_of_le_of_lt (Nat.le_add_right ..) h

theorem Addressable.right (h : Addressable (bs ++ cs)) : Addressable cs := by
  rw [Addressable, List.length_append] at h
  exact Nat.lt_of_le_of_lt (Nat.le_add_left ..) h

theorem Addressable.item (h : Addressable (xs.flatMap encode)) (hx : x ∈ xs) :
    Addressable (encode x) := by
  obtain ⟨before, after, rfl⟩ := List.append_of_mem hx
  rw [List.flatMap_append, List.flatMap_cons] at h
  exact h.right.left

/-- What is counted of all items is at most their bytes, if it is for each item. -/
theorem foldr_le_length_flatMap {count : α → Nat} (h : ∀ x, count x ≤ (encode x).length) :
    xs.foldr (count · + ·) 0 ≤ (xs.flatMap encode).length := by
  induction xs with
  | nil => exact Nat.le_refl 0
  | cons x xs ih =>
    rw [List.foldr_cons, List.flatMap_cons, List.length_append]
    exact Nat.add_le_add (h x) ih

/-- There are no more items than bytes. -/
theorem length_le_encodeList (h : ∀ x, 1 ≤ (encode x).length) :
    xs.length ≤ (encodeList encode xs).length := by
  have hone : xs.foldr (fun _ n => 1 + n) 0 = xs.length := by
    induction xs with
    | nil => rfl
    | cons x xs ih => rw [List.foldr_cons, ih, List.length_cons, Nat.add_comm]
  have hbytes : xs.foldr (fun _ n => 1 + n) 0 ≤ (xs.flatMap encode).length :=
    foldr_le_length_flatMap h
  rw [encodeList, List.length_append, ← hone]
  exact Nat.le_add_left_of_le hbytes

/-- A list has few items when its bytes are few. -/
theorem Addressable.length_lt (h : Addressable (encodeList encode xs))
    (hpos : ∀ x, 1 ≤ (encode x).length) : xs.length < 0x10000000000000000 :=
  Nat.lt_of_le_of_lt (length_le_encodeList hpos) h

end Addressable

/-! ## Parts of a payload -/

theorem Number.length_encode_pos (n : Nat) : 1 ≤ (Number.encode n).length := by
  unfold Number.encode
  split
  · exact Nat.le_refl 1
  split
  · exact Nat.le_add_left ..
  split <;> exact Nat.le_add_left ..

/-- The kind of an atom is a small number. -/
theorem Number.reads_variant {n : Nat} (h : n < 2) :
    Reads (Number.decode .variant) (Number.encode n) n :=
  Number.reads_encode (Nat.lt_trans h (by decide))

theorem reads_bool (b : Bool) : Reads readBool (encodeBool b) b := by
  cases b with
  | false => exact fun _ => rfl
  | true => exact fun _ => rfl

theorem reads_text {s : String} (h : Addressable (encodeText s)) :
    Reads readText (encodeText s) s := by
  refine (Number.reads_encode h.right).bind ((reads_bytes rfl).last ?_)
  rw [Utf8.decode_encode]
  show pure (String.ofList s.toList) = pure s
  rw [String.ofList_toList]

/-- A list is read back when its items are. No item may be without bytes, for the length of the list
must not outgrow them. -/
theorem reads_list {α : Type} {item : Reader α} {encode : α → List UInt8} {xs : List α}
    (h : Addressable (encodeList encode xs)) (hpos : ∀ x, 1 ≤ (encode x).length)
    (hitem : ∀ x ∈ xs, Addressable (encode x) → Reads item (encode x) x) :
    Reads (readList item) (encodeList encode xs) xs := by
  have hlength := h.length_lt hpos
  exact (Number.reads_encode hlength).bind (Reads.many fun x hx => hitem x hx (h.right.item hx))

theorem reads_digest : (d : Option Digest) → Reads readDigest (encodeDigest d) d
  | none => fun _ => rfl
  | some d => (reads_byte 1).bind ((reads_row d).map some)

/-! ## Conditions -/

theorem reads_atom {a : Atom} {index : Nat} (ha : a.Fits index)
    (hindex : index < 0x10000000000000000) (h : Addressable (encodeAtom a)) :
    Reads readAtom (encodeAtom a) a := by
  cases a with
  | word w => exact (Number.reads_variant (by decide)).bind ((reads_text h.right).map Atom.word)
  | group k =>
    have hk : k < NumberKind.long.bound := Nat.lt_trans ha hindex
    exact (Number.reads_variant (by decide)).bind ((Number.reads_encode hk).map Atom.group)

theorem reads_literal {l : Literal} {index : Nat} (hl : l.atom.Fits index)
    (hindex : index < 0x10000000000000000) (h : Addressable (encodeLiteral l)) :
    Reads readLiteral (encodeLiteral l) l := by
  have hr := (reads_atom hl hindex h.right).map fun a =>
    (⟨if decide (l.connective = .or) then .or else .and, l.negated, a⟩ : Literal)
  have hconnective : (if decide (l.connective = .or) then Connective.or else .and) =
      l.connective := by
    cases l.connective with
    | and => rfl
    | or => rfl
  rw [encodeLiteral, List.append_assoc]
  refine (reads_bool _).bind ((reads_bool _).bind ?_)
  rwa [hconnective] at hr ⊢

theorem length_encodeLiteral_pos (l : Literal) : 1 ≤ (encodeLiteral l).length := by
  rw [encodeLiteral, List.append_assoc, List.length_append]
  exact Nat.le_add_right ..

theorem reads_group {g : Group} {index : Nat} (hg : ∀ l ∈ g.literals, l.atom.Fits index)
    (hindex : index < 0x10000000000000000) (h : Addressable (encodeGroup g)) :
    Reads readGroup (encodeGroup g) g :=
  (reads_list h length_encodeLiteral_pos fun l hl hs => reads_literal (hg l hl) hindex hs).map
    Group.mk

theorem length_encodeList_pos {α : Type} (encode : α → List UInt8) (xs : List α) :
    1 ≤ (encodeList encode xs).length := by
  rw [encodeList, List.length_append]
  exact Nat.le_add_right_of_le (Number.length_encode_pos _)

theorem length_encodeGroup_pos (g : Group) : 1 ≤ (encodeGroup g).length :=
  length_encodeList_pos ..

/-- The groups of a condition are no more than its bytes, so every reference can be written. -/
theorem reads_groups {c : Condition} (hc : c.WellFormed)
    (h : Addressable (encodeList encodeGroup c.groups)) :
    Reads (readList readGroup) (encodeList encodeGroup c.groups) c.groups := by
  have hlength := h.length_lt length_encodeGroup_pos
  apply reads_list h length_encodeGroup_pos
  intro g hg hs
  obtain ⟨i, hi⟩ := List.mem_iff_getElem?.1 hg
  have hlt : i < c.groups.length := (List.getElem?_eq_some_iff.1 hi).1
  exact reads_group (hc.fits i g hi) (Nat.lt_trans hlt hlength) hs

/-! ## Entries and payloads -/

theorem reads_entry {e : Entry} (he : e.condition.WellFormed) (h : Addressable (encodeEntry e)) :
    Reads readEntry (encodeEntry e) e := by
  have hgroups : Addressable (encodeList encodeGroup e.condition.groups) := h.right
  have hlength := hgroups.length_lt length_encodeGroup_pos
  have hroot : e.condition.root < NumberKind.long.bound := Nat.lt_trans he.root_lt hlength
  rw [encodeEntry, List.append_assoc, List.append_assoc, List.append_assoc]
  have hwhole := (reads_groups he hgroups).map fun groups =>
    Entry.mk e.rule ⟨groups, e.condition.root⟩
  exact (Number.reads_encodeSigned _).bind <| (Number.reads_encodeSigned _).bind <|
    (reads_text h.left.left.right).bind <| (Number.reads_encode hroot).bind hwhole

theorem length_groups_le_encodeEntry (e : Entry) :
    e.condition.groups.length ≤ (encodeEntry e).length := by
  rw [encodeEntry, List.length_append]
  exact Nat.le_add_left_of_le (length_le_encodeList length_encodeGroup_pos)

theorem length_encodeEntry_pos (e : Entry) : 1 ≤ (encodeEntry e).length := by
  rw [encodeEntry, List.length_append]
  exact Nat.le_add_left_of_le (length_encodeList_pos ..)

/-- **A payload that passes its check is read back from its bytes.** -/
theorem Payload.reads_encode {p : Payload} (hp : p.check = .ok ()) (h : Addressable p.encode) :
    Reads readPayload p.encode p := by
  obtain ⟨⟨hrules, hgroups⟩, hw⟩ := check_eq_ok_iff.1 hp
  have hentries : Addressable (encodeList encodeEntry p.entries) := h.right
  have hrule : p.ruleCount < NumberKind.long.bound := by
    rw [hrules]
    exact hentries.length_lt length_encodeEntry_pos
  have hgroup : p.groupCount < NumberKind.long.bound := by
    rw [hgroups]
    exact Nat.lt_of_le_of_lt (foldr_le_length_flatMap length_groups_le_encodeEntry)
      hentries.right
  have hlist : Reads (readList readEntry) (encodeList encodeEntry p.entries) p.entries :=
    reads_list hentries length_encodeEntry_pos fun e he hs => reads_entry (hw.conditions e he) hs
  have hwhole := hlist.map fun entries =>
    Payload.mk p.ruleCount p.groupCount p.sourceDigest entries
  rw [encode, List.append_assoc, List.append_assoc]
  exact (Number.reads_encode hrule).bind <| (Number.reads_encode hgroup).bind <|
    (reads_digest p.sourceDigest).bind hwhole

theorem Payload.decode_encode {p : Payload} (hp : p.check = .ok ()) (h : Short p.encode) :
    Payload.decode p.encode = .ok p := by
  have hr := reads_encode hp h.addressable []
  rw [List.append_nil] at hr
  rw [Payload.decode, hr]
  rfl

/-! ## Sizes -/

theorem Number.length_encode_le (n : Nat) : (Number.encode n).length ≤ 9 := by
  have hbytes (marker : UInt8) (count : Nat) :
      (marker :: LittleEndian.encode count n).length = count + 1 := by
    rw [List.length_cons, LittleEndian.length_encode]
  unfold Number.encode
  split
  · exact Nat.le_add_left 1 8
  split
  · exact Nat.le_trans (Nat.le_of_eq (hbytes 251 2)) (Nat.le_add_left 3 6)
  split
  · exact Nat.le_trans (Nat.le_of_eq (hbytes 252 4)) (Nat.le_add_left 5 4)
  · exact Nat.le_of_eq (hbytes 253 8)

theorem length_encodeDigest_le (d : Option Digest) : (encodeDigest d).length ≤ 33 := by
  cases d with
  | none => exact Nat.le_add_left 1 32
  | some d => exact Nat.le_of_eq (by rw [encodeDigest, List.length_cons, Vector.length_toList])

/-- Besides its entries a payload has few bytes. -/
theorem Payload.length_encode_le (p : Payload) :
    p.encode.length ≤ 51 + (encodeList encodeEntry p.entries).length := by
  have hrules := Number.length_encode_le p.ruleCount
  have hgroups := Number.length_encode_le p.groupCount
  have hdigest := length_encodeDigest_le p.sourceDigest
  simp only [encode, List.length_append]
  omega

/-! ## Headers -/

theorem length_checksum (payload : List UInt8) : (checksum payload).length = 16 := by
  rw [checksum, List.length_take, Vector.length_toList]
  rfl

theorem length_encodeHeader (payload : List UInt8) :
    (encodeHeader payload).length = headerLength := by
  simp only [encodeHeader, List.length_append, LittleEndian.length_encode, length_checksum]
  rfl

/-- What stands between other bytes is found at its place. -/
theorem take_drop_append {before field after : List UInt8} {i n : Nat} (hi : before.length = i)
    (hn : field.length = n) : ((before ++ (field ++ after)).drop i).take n = field := by
  rw [List.drop_left' hi, List.take_left' hn]

/-- A header is read back, together with what follows it. -/
theorem decodeHeader_encodeHeader {payload : List UInt8} (h : Short payload)
    (rest : List UInt8) :
    decodeHeader (encodeHeader payload ++ rest) =
      .ok (⟨version, payload.length, checksum payload⟩, rest) := by
  have hlength : ¬ (encodeHeader payload ++ rest).length < headerLength := by
    rw [List.length_append, length_encodeHeader]
    omega
  have hmagic : (encodeHeader payload ++ rest).take 4 = magic := by
    simp only [encodeHeader, List.append_assoc]
    exact List.take_left' rfl
  have hversion :
      LittleEndian.decode (((encodeHeader payload ++ rest).drop 4).take 2) = version := by
    simp only [encodeHeader, List.append_assoc]
    rfl
  have hpayload :
      LittleEndian.decode (((encodeHeader payload ++ rest).drop 12).take 4) = payload.length := by
    rw [show encodeHeader payload ++ rest = (magic ++ LittleEndian.encode 2 version ++
      LittleEndian.encode 2 writerVersion ++ LittleEndian.encode 4 0) ++
      (LittleEndian.encode 4 payload.length ++ (checksum payload ++ rest)) by
        simp only [encodeHeader, List.append_assoc]]
    rw [take_drop_append (LittleEndian.length_encode 4 0 ▸ rfl) (LittleEndian.length_encode ..)]
    exact LittleEndian.decode_encode h
  have hchecksum : ((encodeHeader payload ++ rest).drop 16).take 16 = checksum payload := by
    rw [encodeHeader, List.append_assoc]
    refine take_drop_append ?_ (length_checksum payload)
    rw [List.length_append, LittleEndian.length_encode]
    rfl
  rw [decodeHeader, if_neg hlength, if_neg (not_not_intro hmagic), hversion, hpayload, hchecksum,
    List.drop_left' (length_encodeHeader payload)]

theorem payloadBytes_encodeHeader {payload : List UInt8} (h : Short payload) :
    payloadBytes (encodeHeader payload ++ payload) = .ok payload := by
  rw [payloadBytes, decodeHeader_encodeHeader h]
  simp only [List.take_length, ne_eq, not_true_eq_false, if_false, Nat.lt_irrefl]

/-! ## Rule sets -/

/-- The payload of a well-formed set passes the check, with any source. -/
theorem check_payloadOf {rs : RuleSet} (h : rs.WellFormed) (source : Option String) :
    (payloadOf rs source).check = .ok () :=
  Payload.check_eq_ok_iff.2 ⟨⟨rfl, rfl⟩, ⟨h.distinct, h.ascending, h.conditions⟩⟩

theorem encode_eq_ok {rs : RuleSet} {source : Option String}
    (h : Short (payloadOf rs source).encode) :
    encode rs source = .ok (encodeHeader (payloadOf rs source).encode ++
      (payloadOf rs source).encode) :=
  if_pos h

/-- A set of one rule that refers to its group twice has small payloads, with and without a
source. -/
theorem exists_built_small :
    ∃ rs, (RuleSet.build [⟨2, -1, "(&a | &b) !#0"⟩]).value = .ok rs ∧
      ∀ source, (payloadOf rs source).encode.length < 0x80000100 := by
  obtain ⟨c, hc, hentry⟩ : ∃ c, Condition.ofText "(&a | &b) !#0" = .ok c ∧
      (encodeList encodeEntry [⟨⟨2, -1, "(&a | &b) !#0"⟩, c⟩]).length < 0x80000000 :=
    ⟨_, (Scan.ofText_eq_run _).trans rfl, by decide⟩
  refine ⟨_, RuleSet.build_eq_ok_iff.2 ⟨by decide, _, RuleSet.readEntries_cons hc rfl, rfl⟩, ?_⟩
  intro source
  have hlength := Payload.length_encode_le
    (payloadOf ⟨RuleSet.sortEntries [⟨⟨2, -1, "(&a | &b) !#0"⟩, c⟩], none⟩ source)
  simp only [payloadOf, RuleSet.sortEntries, List.mergeSort_singleton] at hlength ⊢
  omega

theorem exists_built_short :
    ∃ rs, (RuleSet.build [⟨2, -1, "(&a | &b) !#0"⟩]).value = .ok rs ∧
      ∀ source, Short (payloadOf rs source).encode := by
  obtain ⟨rs, hrs, hsmall⟩ := exists_built_small
  exact ⟨rs, hrs, fun source => Nat.lt_trans (hsmall source) (by decide)⟩

/-- **A reachable set is restored from its blob.** The restored set has the same entries in the same
order and the digest of the source that was given, whatever the digest of the set was, so that with
this source it gives the same blob again. -/
theorem restore_encode {rs : RuleSet} (hrs : rs.Reachable) (source : Option String)
    (h : (payloadOf rs source).encode.length < 0x100000000) :
    ∃ bytes restored, encode rs source = .ok bytes ∧ decode bytes = .ok restored ∧
      restored.entries = rs.entries ∧
      restored.sourceDigest = (source.map fun text => Blake3.digest (Utf8.encode text.toList)) ∧
      encode restored source = .ok bytes := by
  have hcheck := check_payloadOf hrs.wellFormed source
  refine ⟨_, ⟨rs.entries, source.map sourceDigest⟩, encode_eq_ok h, ?_, rfl, rfl, encode_eq_ok h⟩
  rw [decode, payloadBytes_encodeHeader h]
  simp only [ofPayload]
  rw [Payload.decode_encode hcheck h]
  simp only
  rw [hcheck]
  rfl

/-- A set of one rule is restored from a blob that names a source. -/
theorem restore_encode_shared :
    ∃ rs bytes restored,
      (RuleSet.build [⟨2, -1, "(&a | &b) !#0"⟩]).value = .ok rs ∧
      encode rs (some "text") = .ok bytes ∧ decode bytes = .ok restored ∧
      restored.entries = rs.entries ∧
      restored.sourceDigest = some (Blake3.digest (Utf8.encode "text".toList)) := by
  obtain ⟨rs, hrs, hshort⟩ := exists_built_short
  obtain ⟨bytes, restored, he, hd, hsame, hdigest, -⟩ :=
    restore_encode (.built hrs) (some "text") (hshort _)
  exact ⟨rs, bytes, restored, hrs, he, hd, hsame, hdigest⟩

end WordLogic.Blob
