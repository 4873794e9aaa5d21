import WordLogic.Proofs.Blob.Fields
import WordLogic.Proofs.RuleFile.Lines

/-!
# Blobs that stand for their source

A blob that was stored with the text of a rule file answers for that text: it is accepted for exactly
the texts whose bytes have the BLAKE3 digest of the stored one, and the set that it gives back answers
every sentence as the set that is read from the text (`accepted_for_own_source`). A blob without a
source is accepted for none.

* `decodeForSource_of_encode`: what is made of a blob for a text, in one equation.
* `RuleSet.AnswersAlike`: two sets give every sentence the same verdict, report and reasons.
-/

namespace WordLogic

namespace RuleSet

/-- The two sets give each sentence the same answers, without a fault: the verdict and the report
with what they note, and for each identifier the reason of its rule, if there is one. -/
structure AnswersAlike (a b : RuleSet) : Prop where
  verdict : ∀ s, ∃ v, a.verdict s = .ok v ∧ b.verdict s = .ok v
  report : ∀ s, ∃ r, a.report s = .ok r ∧ b.report s = .ok r
  reason : ∀ s id, (a.condition? id = none ∧ b.condition? id = none) ∨
    ∃ c d r, a.condition? id = some c ∧ b.condition? id = some d ∧
      c.reason? s = .ok r ∧ d.reason? s = .ok r

/-- A rule that is found by its identifier is one of the set. -/
theorem condition?_wellFormed {rs : RuleSet} (h : rs.WellFormed) {id : Int32} {c : Condition}
    (hc : rs.condition? id = some c) : c.WellFormed := by
  obtain ⟨e, he, rfl⟩ := Option.map_eq_some_iff.1 hc
  exact h.conditions e (List.mem_of_find?_eq_some he)

/-- The entries alone settle the answers. -/
theorem answersAlike_of_entries {a b : RuleSet} (hb : b.WellFormed) (h : a.entries = b.entries) :
    a.AnswersAlike b where
  verdict s := by
    obtain ⟨v, hv⟩ : ∃ v, b.verdict s = .ok v := firstMatch_eq_ok s hb.conditions
    exact ⟨v, by rwa [RuleSet.verdict, h], hv⟩
  report s := by
    obtain ⟨r, hr⟩ : ∃ r, b.report s = .ok r := reportOn_eq_ok s hb.conditions
    exact ⟨r, by rwa [RuleSet.report, h], hr⟩
  reason s id := by
    have hid : a.condition? id = b.condition? id := by
      rw [condition?, condition?, find?, find?, h]
    rw [hid]
    cases hc : b.condition? id with
    | none => exact .inl ⟨rfl, rfl⟩
    | some c =>
      obtain ⟨r, hr⟩ := reason?_eq_ok (condition?_wellFormed hb hc) s
      exact .inr ⟨c, c, r, rfl, rfl, hr, hr⟩

end RuleSet

namespace Blob

open RuleSet

/-- What is made of the blob of a well-formed set for a text: the digest that is stored decides. -/
theorem decodeForSource_of_encode {rs : RuleSet} (hrs : rs.WellFormed) {source : Option String}
    {blob : List UInt8} (h : encode rs source = .ok blob) (text : String) :
    decodeForSource blob text =
      if (source.map fun text => Blake3.digest (Utf8.encode text.toList)) =
          some (Blake3.digest (Utf8.encode text.toList)) then
        .ok ⟨rs.entries, source.map fun text => Blake3.digest (Utf8.encode text.toList)⟩
      else .error .otherSource := by
  rw [decodeForSource, decode_of_encode hrs h]
  rfl

/-- The blob stands for a text whose set is `rs`. Texts are told apart by the digests of their bytes
and by nothing else. -/
structure StandsFor (blob : List UInt8) (text : String) (rs : RuleSet) : Prop where
  accepts : ∀ other : String,
    Blake3.digest (Utf8.encode text.toList) = Blake3.digest (Utf8.encode other.toList) →
    ∃ restored, decodeForSource blob other = .ok restored ∧
      restored.entries = rs.entries ∧ restored.AnswersAlike rs
  refuses : ∀ other : String,
    Blake3.digest (Utf8.encode text.toList) ≠ Blake3.digest (Utf8.encode other.toList) →
    decodeForSource blob other = .error .otherSource
  /-- Where the two texts are no collision, what is accepted is the set of the text at hand. -/
  fresh : ∀ other : String,
    (Blake3.digest (Utf8.encode text.toList) = Blake3.digest (Utf8.encode other.toList) →
      text = other) →
    ∀ restored, decodeForSource blob other = .ok restored →
      ∃ now, (ofSource other).value = .ok now ∧
        restored.entries = now.entries ∧ restored.AnswersAlike now

theorem standsFor_of_encode {text : String} {rs : RuleSet} (hrs : (ofSource text).value = .ok rs)
    {blob : List UInt8} (h : encode rs (some text) = .ok blob) : StandsFor blob text rs := by
  have hw : rs.WellFormed := (Reachable.source hrs).wellFormed
  have haccepts (other : String)
      (he : Blake3.digest (Utf8.encode text.toList) = Blake3.digest (Utf8.encode other.toList)) :
      decodeForSource blob other =
        .ok ⟨rs.entries, some (Blake3.digest (Utf8.encode text.toList))⟩ := by
    rw [decodeForSource_of_encode hw h, Option.map_some, if_pos (congrArg some he)]
  have hrefuses (other : String)
      (hne : Blake3.digest (Utf8.encode text.toList) ≠ Blake3.digest (Utf8.encode other.toList)) :
      decodeForSource blob other = .error .otherSource := by
    rw [decodeForSource_of_encode hw h, Option.map_some, if_neg fun he => hne (Option.some.inj he)]
  refine ⟨fun other he => ?_, hrefuses, fun other hsame restored hd => ?_⟩
  · exact ⟨_, haccepts other he, rfl, answersAlike_of_entries hw rfl⟩
  · by_cases he : Blake3.digest (Utf8.encode text.toList) = Blake3.digest (Utf8.encode other.toList)
    · rw [haccepts other he] at hd
      cases hd
      obtain rfl := hsame he
      exact ⟨rs, hrs, rfl, answersAlike_of_entries hw rfl⟩
    · rw [hrefuses other he] at hd
      cases hd

/-- **A blob is accepted for exactly the texts with the digest of its source.** Then it answers every
sentence as the set of that source, which is the set of the text at hand unless the two texts are a
collision. Without a source a blob is accepted for no text. -/
theorem accepted_for_own_source {text : String} {rs : RuleSet}
    (hrs : (ofSource text).value = .ok rs)
    (hshort : (payloadOf rs (some text)).encode.length < 0x100000000) :
    (∃ blob, encode rs (some text) = .ok blob ∧ StandsFor blob text rs) ∧
    ∀ bare : RuleSet, bare.Reachable → (payloadOf bare none).encode.length < 0x100000000 →
      ∃ blob, encode bare none = .ok blob ∧
        ∀ other, decodeForSource blob other = .error .otherSource := by
  constructor
  · have hblob := encode_eq_ok hshort
    exact ⟨_, hblob, standsFor_of_encode hrs hblob⟩
  · intro bare hbare hbareShort
    have hblob := encode_eq_ok hbareShort
    refine ⟨_, hblob, fun other => ?_⟩
    rw [decodeForSource_of_encode hbare.wellFormed hblob]
    exact if_neg nofun

open RuleFile in
/-- The blob of a file with one rule is accepted for this file, and answers as the file does; after
an edit of the file it is refused. Without the source it is not accepted. -/
theorem accepted_for_own_source_shared :
    ∃ rs blob restored bare, (ofSource "rule 2 (priority -1): (&a | &b) !#0").value = .ok rs ∧
      (payloadOf rs (some "rule 2 (priority -1): (&a | &b) !#0")).encode.length < 0x100000000 ∧
      encode rs (some "rule 2 (priority -1): (&a | &b) !#0") = .ok blob ∧
      decodeForSource blob "rule 2 (priority -1): (&a | &b) !#0" = .ok restored ∧
      restored.entries = rs.entries ∧ restored.AnswersAlike rs ∧
      decodeForSource blob "rule 2 (priority -1): (&a | &c) !#0" = .error .otherSource ∧
      encode rs none = .ok bare ∧
      decodeForSource bare "rule 2 (priority -1): (&a | &b) !#0" = .error .otherSource := by
  have hann : PriorityPart " (priority -1)".toList (-1) :=
    @PriorityPart.present [' '] [] [' '] [] ['-', '1'] (-1) (by decide) (by decide) (by decide)
      (by decide) (.minus ⟨List.forall_mem_singleton.2 rfl, '1', [], rfl, by decide⟩) (by decide)
  have hbody : RuleBody "2 (priority -1): (&a | &b) !#0".toList ⟨2, -1, "(&a | &b) !#0"⟩ :=
    @RuleBody.intro ['2'] " (priority -1)".toList [] " (&a | &b) !#0".toList 2 (-1)
      (.unsigned ⟨List.forall_mem_singleton.2 rfl, '2', [], rfl, by decide⟩) hann (by decide)
      (by decide) (by decide)
  have hline : Line.Says ⟨"rule 2 (priority -1): (&a | &b) !#0".toList, false⟩
      (some ⟨2, -1, "(&a | &b) !#0"⟩) :=
    @Line.Says.rule [] [' '] "2 (priority -1): (&a | &b) !#0".toList [] false _ nofun (by decide)
      (by decide) hbody (.nothing false)
  have hlines : lines "rule 2 (priority -1): (&a | &b) !#0".toList =
      [⟨"rule 2 (priority -1): (&a | &b) !#0".toList, false⟩] := by
    decide
  have hsaid : List.Forall₂ Line.Says (lines "rule 2 (priority -1): (&a | &b) !#0".toList)
      [some ⟨2, -1, "(&a | &b) !#0"⟩] := by
    rw [hlines]
    exact .cons hline .nil
  have hread : RuleFile.read "rule 2 (priority -1): (&a | &b) !#0" =
      .ok [⟨2, -1, "(&a | &b) !#0"⟩] := read_eq_ok_iff.2 (readAll_of_said hsaid)
  obtain ⟨rs, hbuilt, hshort⟩ := exists_built_short
  have hrs : (ofSource "rule 2 (priority -1): (&a | &b) !#0").value = .ok rs := by
    rw [ofSource, hread]
    simp only [hbuilt]
    rfl
  obtain ⟨⟨blob, hblob, hstands⟩, hbare⟩ := accepted_for_own_source hrs (hshort _)
  obtain ⟨restored, hd, hentries, halike⟩ := hstands.accepts _ rfl
  have hedited : Blake3.digest (Utf8.encode "rule 2 (priority -1): (&a | &b) !#0".toList) ≠
      Blake3.digest (Utf8.encode "rule 2 (priority -1): (&a | &c) !#0".toList) := by
    rw [Blake3.digest_of_length_le (by decide), Blake3.digest_of_length_le (by decide)]
    decide +kernel
  obtain ⟨bare, he, hrefused⟩ := hbare rs (.source hrs) (hshort none)
  exact ⟨rs, blob, restored, bare, hrs, hshort _, hblob, hd, hentries, halike,
    hstands.refuses _ hedited, he, hrefused _⟩

end Blob

end WordLogic
