import WordLogic.Proofs.Blob.Validity
import WordLogic.Proofs.Condition.Scan
import WordLogic.Proofs.Condition.Truth
import WordLogic.Proofs.Condition.WellFormed
import WordLogic.RuleSet.Source

/-!
# Rule sets that can be had

There are three ways to a rule set: a list of rules is built, the text of a rule file is read, or a
blob is decoded (`Reachable`). Each of them gives a well-formed set (`Reachable.wellFormed`), so the
evaluation of a reachable set never meets a fault (`reachable_answers`).
-/

namespace WordLogic.RuleSet

/-- The ways to a rule set. -/
inductive Reachable : RuleSet → Prop
  | built {rules : List Rule} {rs : RuleSet} (h : (build rules).value = .ok rs) : Reachable rs
  | source {text : String} {rs : RuleSet} (h : (ofSource text).value = .ok rs) : Reachable rs
  | restored {bytes : List UInt8} {rs : RuleSet} (h : Blob.decode bytes = .ok rs) : Reachable rs

/-! ## Built sets -/

theorem firstRepeated?_eq_none_iff {taken : List Int32} {rules : List Rule} :
    firstRepeated? taken rules = none ↔ Fresh taken (rules.map (·.id)) := by
  induction rules generalizing taken with
  | nil => exact iff_of_true rfl (fresh_nil taken)
  | cons r rs ih =>
    rw [firstRepeated?, List.map_cons, fresh_cons]
    by_cases h : r.id ∈ taken
    · rw [if_pos h]
      exact iff_of_false nofun fun hr => hr.1 h
    · rw [if_neg h, ih]
      exact (and_iff_right h).symm

/-- The entries of rules are the rules in their order, each with the condition of its text. -/
theorem readEntries_eq_ok {rules : List Rule} {es : List Entry} (h : readEntries rules = .ok es) :
    es.map (·.rule) = rules ∧ ∀ e ∈ es, e.rule.condition = .ok e.condition := by
  induction rules generalizing es with
  | nil =>
    cases h
    exact ⟨rfl, nofun⟩
  | cons r rs ih =>
    rw [readEntries] at h
    split at h
    · cases h
    rename_i c hc
    split at h
    · cases h
    rename_i es' hes
    cases h
    obtain ⟨hrules, hconditions⟩ := ih hes
    exact ⟨by rw [List.map_cons, hrules], List.forall_mem_cons.2 ⟨hc, hconditions⟩⟩

theorem sortEntries_perm (es : List Entry) : (sortEntries es).Perm es :=
  List.mergeSort_perm es _

/-- Sorting puts lower priorities first. -/
theorem sortEntries_ascending (es : List Entry) :
    (sortEntries es).Pairwise fun a b => a.rule.priority ≤ b.rule.priority := by
  have hsorted := List.pairwise_mergeSort (fun a b c : Entry => a.rule.atMost_trans b.rule c.rule)
    (fun a b => a.rule.atMost_total b.rule) es
  exact hsorted.imp of_decide_eq_true

theorem readEntries_cons {r : Rule} {rs : List Rule} {c : Condition} {es : List Entry}
    (h : r.condition = .ok c) (hs : readEntries rs = .ok es) :
    readEntries (r :: rs) = .ok (⟨r, c⟩ :: es) := by
  rw [readEntries, h]
  simp only [hs]

theorem firstRepeated?_nil_eq_none_iff {rules : List Rule} :
    firstRepeated? [] rules = none ↔ (rules.map (·.id)).Nodup :=
  firstRepeated?_eq_none_iff.trans fresh_iff_nodup

/-- A set that is built holds the rules of the list, sorted, with the conditions of their texts. -/
theorem build_eq_ok_iff {rules : List Rule} {rs : RuleSet} :
    (build rules).value = .ok rs ↔
      (rules.map (·.id)).Nodup ∧
        ∃ es, readEntries rules = .ok es ∧ rs = ⟨sortEntries es, none⟩ := by
  rw [← firstRepeated?_nil_eq_none_iff, build]
  cases firstRepeated? [] rules with
  | some id => exact iff_of_false nofun fun h => nomatch h.1
  | none =>
    cases readEntries rules with
    | error e => exact iff_of_false nofun fun ⟨_, _, he, _⟩ => nomatch he
    | ok es =>
      constructor
      · intro h
        cases h
        exact ⟨rfl, es, rfl, rfl⟩
      · rintro ⟨-, es', he, rfl⟩
        cases he
        rfl

theorem build_wellFormed {rules : List Rule} {rs : RuleSet} (h : (build rules).value = .ok rs) :
    rs.WellFormed := by
  obtain ⟨hids, es, hes, rfl⟩ := build_eq_ok_iff.1 h
  obtain ⟨hrules, hconditions⟩ := readEntries_eq_ok hes
  have hperm := sortEntries_perm es
  refine ⟨?_, sortEntries_ascending es, ?_⟩
  · rw [(hperm.map _).nodup_iff, ← Function.comp_def, ← List.map_map, hrules]
    exact hids
  · intro e he
    have hc : e.rule.condition = .ok e.condition := hconditions e (hperm.mem_iff.1 he)
    exact Condition.ofText_wellFormed hc

/-! ## Sets from texts and from blobs -/

/-- A set that is read from a text is built of the rules in the text. -/
theorem ofSource_eq_ok {text : String} {rs : RuleSet} (h : (ofSource text).value = .ok rs) :
    ∃ rules, RuleFile.read text = .ok rules ∧ (build rules).value = .ok rs := by
  unfold ofSource at h
  split at h
  · cases h
  rename_i rules hrules
  refine ⟨rules, hrules, ?_⟩
  simp only at h
  cases hb : (build rules).value with
  | error e =>
    rw [hb] at h
    cases h
  | ok rs' =>
    rw [hb] at h
    cases h
    rfl

/-- A set that is decoded is a payload that the check accepts. -/
theorem decode_eq_ok {bytes : List UInt8} {rs : RuleSet} (h : Blob.decode bytes = .ok rs) :
    ∃ p : Blob.Payload, p.check = .ok () ∧ rs = ⟨p.entries, p.sourceDigest⟩ := by
  unfold Blob.decode at h
  split at h
  · cases h
  unfold Blob.ofPayload at h
  split at h
  · cases h
  rename_i p _
  split at h
  · cases h
  rename_i hp
  cases h
  exact ⟨p, hp, rfl⟩

theorem decode_wellFormed {bytes : List UInt8} {rs : RuleSet} (h : Blob.decode bytes = .ok rs) :
    rs.WellFormed := by
  obtain ⟨p, hp, rfl⟩ := decode_eq_ok h
  exact (Blob.Payload.check_eq_ok_iff.1 hp).2

/-- **A reachable set is well formed**, whichever way led to it. -/
theorem Reachable.wellFormed {rs : RuleSet} (h : rs.Reachable) : rs.WellFormed := by
  cases h with
  | built h => exact build_wellFormed h
  | source h =>
    obtain ⟨rules, -, hb⟩ := ofSource_eq_ok h
    exact build_wellFormed hb
  | restored h => exact decode_wellFormed h

/-! ## Answers -/

theorem firstMatch_eq_ok (s : Sentence) {es : List Entry}
    (h : ∀ e ∈ es, e.condition.WellFormed) : ∃ v, firstMatch s es = .ok v := by
  induction es with
  | nil => exact ⟨_, rfl⟩
  | cons e es ih =>
    obtain ⟨he, hes⟩ := List.forall_mem_cons.1 h
    obtain ⟨o, ho, -⟩ := Condition.outcome_eq_ok he.backward he.root_lt s
    obtain ⟨v, hv⟩ := ih hes
    rw [firstMatch, ho, hv]
    cases o with
    | holds => exact ⟨_, rfl⟩
    | fails unmet => exact ⟨_, rfl⟩

theorem reason?_eq_ok {c : Condition} (h : c.WellFormed) (s : Sentence) :
    ∃ r, c.reason? s = .ok r := by
  obtain ⟨o, ho, -⟩ := Condition.outcome_eq_ok h.backward h.root_lt s
  rw [Condition.reason?, ho]
  exact ⟨_, rfl⟩

theorem reportOn_eq_ok (s : Sentence) {es : List Entry}
    (h : ∀ e ∈ es, e.condition.WellFormed) : ∃ r, reportOn s es = .ok r := by
  induction es with
  | nil => exact ⟨_, rfl⟩
  | cons e es ih =>
    obtain ⟨he, hes⟩ := List.forall_mem_cons.1 h
    obtain ⟨reason, hr⟩ := reason?_eq_ok he s
    obtain ⟨report, hreport⟩ := ih hes
    rw [reportOn, hr, hreport]
    cases reason with
    | none => exact ⟨_, rfl⟩
    | some reason => exact ⟨_, rfl⟩

/-- **Reachable sets are well formed, and always answer.** Verdict, report, reason and the truth of
every group are found without a fault: there is a place in the memory for every group, each step is
at a group and a literal that are there, and so is the demand that is named for a group that
fails. -/
theorem reachable_answers {rs : RuleSet} (h : rs.Reachable) :
    rs.WellFormed ∧ ∀ s : Sentence,
      (∃ v, rs.verdict s = .ok v) ∧ (∃ r, rs.report s = .ok r) ∧
      ∀ e ∈ rs.entries,
        (∃ b, e.condition.holds s = .ok b) ∧ (∃ r, e.condition.reason? s = .ok r) ∧
        ∀ k < e.condition.groups.length, ∃ o trail,
          e.condition.settled k s = .ok (o, trail) ∧
          e.condition.groupHolds k s = .ok o.isHolds ∧
          trail.known.size = e.condition.groups.length ∧
          (∀ step ∈ trail.steps, step.InRange e.condition.groups) ∧
          ∀ unmet, o = .fails unmet → unmet.Located e.condition.groups := by
  have hw := h.wellFormed
  refine ⟨hw, fun s => ⟨firstMatch_eq_ok s hw.conditions, reportOn_eq_ok s hw.conditions, ?_⟩⟩
  intro e he
  have hc := hw.conditions e he
  have hholds : e.condition.holds s = .ok _ := Condition.groupHolds_eq_ok hc.backward hc.root_lt s
  refine ⟨⟨_, hholds⟩, reason?_eq_ok hc s, ?_⟩
  intro k hk
  obtain ⟨o, ho, -⟩ := Condition.outcome_eq_ok hc.backward hk s
  obtain ⟨e', hr, -⟩ | ⟨o', trail, hr, -, ht⟩ := (e.condition.settled_direct k s).cases
  · rw [Condition.outcome, hr] at ho
    cases ho
  · have hoo : e.condition.outcome k s = .ok o' := by
      rw [Condition.outcome, hr]
      rfl
    refine ⟨o', trail, hr, ?_, ht.size_known, ht.inRange, ?_⟩
    · rw [Condition.groupHolds, hoo]
      rfl
    · rintro unmet rfl
      exact Condition.outcome_located hoo

/-- A set whose first rule refers to a group twice, once by a reference of its text. -/
theorem reachable_answers_shared :
    ∃ rs, (build [⟨2, 1, "(&a | &b) !#0"⟩, ⟨1, -1, "!&c"⟩]).value = .ok rs ∧
      rs.WellFormed ∧ ∃ v, rs.verdict (Sentence.ofText "b c") = .ok v := by
  obtain ⟨c, hc⟩ : ∃ c, Condition.ofText "(&a | &b) !#0" = .ok c :=
    ⟨_, (Scan.ofText_eq_run _).trans rfl⟩
  obtain ⟨d, hd⟩ : ∃ d, Condition.ofText "!&c" = .ok d := ⟨_, (Scan.ofText_eq_run _).trans rfl⟩
  obtain ⟨rs, hrs⟩ :
      ∃ rs, (build [⟨2, 1, "(&a | &b) !#0"⟩, ⟨1, -1, "!&c"⟩]).value = .ok rs :=
    ⟨_, build_eq_ok_iff.2 ⟨by decide, _, readEntries_cons hc (readEntries_cons hd rfl), rfl⟩⟩
  obtain ⟨hw, h⟩ := reachable_answers (.built hrs)
  exact ⟨rs, hrs, hw, (h (Sentence.ofText "b c")).1⟩

end WordLogic.RuleSet
