import Mathlib
import WordLogic.Proofs.Rule.Order
import WordLogic.Proofs.RuleSet.Reachable

/-!
# What becomes of a list of rules

A list of rules is refused for the first identifier that occurs again, and then for the first text
that is no condition, both in the order of the list and not in that of the priorities
(`FirstRepeated`, `FirstMalformed`). Otherwise there is a set of them: its rules are those of the
list, sorted, and each is found by its identifier with the condition of its text (`MadeOf`).
`build_outcome` says when each of the three happens.
-/

namespace WordLogic

namespace Rule

/-- The rule is the first of the list whose identifier an earlier rule has. -/
def FirstRepeated (rules : List Rule) (r : Rule) : Prop :=
  ∃ before after, rules = before ++ r :: after ∧ r.id ∈ before.map (·.id) ∧
    (before.map (·.id)).Nodup

/-- The rule is the first of the list whose text is no condition. -/
def FirstMalformed (rules : List Rule) (r : Rule) (e : TextError) : Prop :=
  ∃ before after, rules = before ++ r :: after ∧ r.condition = .error e ∧
    ∀ b ∈ before, ∃ c, b.condition = .ok c

end Rule

namespace RuleSet

variable {rules : List Rule} {rs : RuleSet}

/-! ## Identifiers -/

/-- The identifier that is found repeated is that of the first rule with one that is taken. -/
theorem firstRepeated?_eq_some_iff {taken : List Int32} {id : Int32} :
    firstRepeated? taken rules = some id ↔
      ∃ before r after, rules = before ++ r :: after ∧ r.id = id ∧
        (r.id ∈ taken ∨ r.id ∈ before.map (·.id)) ∧ Fresh taken (before.map (·.id)) := by
  induction rules generalizing taken with
  | nil =>
    refine iff_of_false (by simp [firstRepeated?]) ?_
    rintro ⟨before, r, after, hrules, -⟩
    simp at hrules
  | cons a rules ih =>
    rw [firstRepeated?]
    by_cases ha : a.id ∈ taken
    · rw [if_pos ha, Option.some.injEq]
      constructor
      · intro hid
        exact ⟨[], a, rules, rfl, hid, .inl ha, fresh_nil taken⟩
      · rintro ⟨before, r, after, hrules, hid, -, hfresh⟩
        cases before with
        | nil =>
          cases hrules
          exact hid
        | cons b before =>
          cases hrules
          exact absurd ha (fresh_cons.1 hfresh).1
    · rw [if_neg ha, ih]
      constructor
      · rintro ⟨before, r, after, rfl, hid, htaken, hfresh⟩
        refine ⟨a :: before, r, after, rfl, hid, ?_, fresh_cons.2 ⟨ha, hfresh⟩⟩
        rw [List.mem_cons] at htaken
        rw [List.map_cons, List.mem_cons]
        tauto
      · rintro ⟨before, r, after, hrules, hid, htaken, hfresh⟩
        cases before with
        | nil =>
          cases hrules
          exact absurd (htaken.resolve_right List.not_mem_nil) ha
        | cons b before =>
          cases hrules
          refine ⟨before, r, after, rfl, hid, ?_, (fresh_cons.1 hfresh).2⟩
          rw [List.map_cons, List.mem_cons] at htaken
          rw [List.mem_cons]
          tauto

theorem firstRepeated?_nil_eq_some_iff {id : Int32} :
    firstRepeated? [] rules = some id ↔ ∃ r, Rule.FirstRepeated rules r ∧ r.id = id := by
  rw [firstRepeated?_eq_some_iff]
  constructor
  · rintro ⟨before, r, after, hrules, hid, htaken, hfresh⟩
    exact ⟨r, ⟨before, after, hrules, htaken.resolve_left List.not_mem_nil,
      fresh_iff_nodup.1 hfresh⟩, hid⟩
  · rintro ⟨r, ⟨before, after, hrules, hmem, hnodup⟩, hid⟩
    exact ⟨before, r, after, hrules, hid, .inr hmem, fresh_iff_nodup.2 hnodup⟩

/-! ## Texts -/

theorem exists_readEntries (h : ∀ r ∈ rules, ∃ c, r.condition = .ok c) :
    ∃ es, readEntries rules = .ok es := by
  induction rules with
  | nil => exact ⟨[], rfl⟩
  | cons r rs ih =>
    obtain ⟨⟨c, hc⟩, hrs⟩ := List.forall_mem_cons.1 h
    obtain ⟨es, hes⟩ := ih hrs
    exact ⟨_, readEntries_cons hc hes⟩

theorem condition_eq_ok {es : List Entry} (h : readEntries rules = .ok es) :
    ∀ r ∈ rules, ∃ c, r.condition = .ok c := by
  obtain ⟨rfl, hconditions⟩ := readEntries_eq_ok h
  intro r hr
  obtain ⟨e, he, rfl⟩ := List.mem_map.1 hr
  exact ⟨e.condition, hconditions e he⟩

/-- Rules whose texts are conditions do not end the reading. -/
theorem readEntries_append {before : List Rule} (h : ∀ b ∈ before, ∃ c, b.condition = .ok c)
    {id : Int32} {e : TextError} (he : readEntries rules = .error (id, e)) :
    readEntries (before ++ rules) = .error (id, e) := by
  induction before with
  | nil => exact he
  | cons b before ih =>
    obtain ⟨⟨c, hc⟩, hbefore⟩ := List.forall_mem_cons.1 h
    rw [List.cons_append, readEntries, hc]
    simp only [ih hbefore]

/-- The fault that is found is that of the first text that is no condition. -/
theorem readEntries_eq_error_iff {id : Int32} {e : TextError} :
    readEntries rules = .error (id, e) ↔ ∃ r, Rule.FirstMalformed rules r e ∧ r.id = id := by
  constructor
  · intro h
    induction rules with
    | nil => cases h
    | cons a rules ih =>
      rw [readEntries] at h
      split at h
      · rename_i he
        cases h
        exact ⟨a, ⟨[], rules, rfl, he, List.forall_mem_nil _⟩, rfl⟩
      · rename_i c hc
        split at h
        · rename_i he
          cases h
          obtain ⟨r, ⟨before, after, rfl, hr, hbefore⟩, hid⟩ := ih he
          exact ⟨r, ⟨a :: before, after, rfl, hr, List.forall_mem_cons.2 ⟨⟨c, hc⟩, hbefore⟩⟩, hid⟩
        · cases h
  · rintro ⟨r, ⟨before, after, rfl, hr, hbefore⟩, rfl⟩
    refine readEntries_append hbefore ?_
    rw [readEntries, hr]

/-! ## Refusals -/

theorem build_eq_repeatedId_iff {id : Int32} :
    (build rules).value = .error (.repeatedId id) ↔ firstRepeated? [] rules = some id := by
  rw [build]
  split
  · rename_i h
    simp [h]
  · rename_i h
    split <;> simp [h]

theorem build_eq_badText_iff {id : Int32} {e : TextError} :
    (build rules).value = .error (.badText id e) ↔
      (rules.map (·.id)).Nodup ∧ readEntries rules = .error (id, e) := by
  rw [build, ← firstRepeated?_nil_eq_none_iff]
  split
  · rename_i h
    simp [h]
  · rename_i h
    split <;> simp_all

/-! ## Sets -/

/-- Entries and rules are sorted alike. -/
theorem map_rule_sortEntries (es : List Entry) :
    (sortEntries es).map (·.rule) = Rule.sort (es.map (·.rule)) :=
  List.map_mergeSort fun _ _ _ _ => rfl

theorem mem_of_find?_eq_some {id : Int32} {e : Entry} (h : rs.find? id = some e) :
    e ∈ rs.entries ∧ e.rule.id = id := by
  unfold find? at h
  exact ⟨List.mem_of_find?_eq_some h, by simpa using List.find?_some h⟩

theorem find?_eq_none_iff {id : Int32} :
    rs.find? id = none ↔ ∀ e ∈ rs.entries, e.rule.id ≠ id := by
  simp [find?]

/-- The entry with an identifier is found. -/
theorem find?_eq_some_iff (h : (rs.entries.map (·.rule.id)).Nodup) {id : Int32} {e : Entry} :
    rs.find? id = some e ↔ e ∈ rs.entries ∧ e.rule.id = id := by
  refine ⟨mem_of_find?_eq_some, ?_⟩
  rintro ⟨he, rfl⟩
  cases hf : rs.find? e.rule.id with
  | none => exact absurd rfl (find?_eq_none_iff.1 hf e he)
  | some a =>
    obtain ⟨ha, hid⟩ := mem_of_find?_eq_some hf
    rw [List.inj_on_of_nodup_map h ha he hid]

/-- The set has the rules of the list in the order of checking, and each of them is found by its
identifier with the condition of its text. -/
structure MadeOf (rules : List Rule) (rs : RuleSet) : Prop where
  order : ∃ sorted, Rule.StablySorted rules sorted ∧
    rs.order = sorted.map fun r => (r.id, r.priority)
  rule?_eq_some : ∀ id r, rs.rule? id = some r ↔ r ∈ rules ∧ r.id = id
  rule?_eq_none : ∀ id, rs.rule? id = none ↔ ∀ r ∈ rules, r.id ≠ id
  condition?_eq_some : ∀ id c,
    rs.condition? id = some c ↔ ∃ r ∈ rules, r.id = id ∧ r.condition = .ok c
  condition?_eq_none : ∀ id, rs.condition? id = none ↔ ∀ r ∈ rules, r.id ≠ id

/-- A set that is built is made of the rules it is built of. -/
theorem madeOf_build (h : (build rules).value = .ok rs) : MadeOf rules rs := by
  have hdistinct := (build_wellFormed h).distinct
  obtain ⟨-, es, hes, rfl⟩ := build_eq_ok_iff.1 h
  obtain ⟨rfl, hconditions⟩ := readEntries_eq_ok hes
  have hmem : ∀ e, e ∈ sortEntries es ↔ e ∈ es := fun e => (sortEntries_perm es).mem_iff
  have hnone : ∀ id, (RuleSet.mk (sortEntries es) none).find? id = none ↔
      ∀ r ∈ es.map (·.rule), r.id ≠ id := by
    intro id
    simp only [find?_eq_none_iff, hmem, List.forall_mem_map]
  constructor
  · refine ⟨_, Rule.sort_stablySorted (es.map (·.rule)), ?_⟩
    rw [← map_rule_sortEntries, List.map_map]
    rfl
  · intro id r
    simp only [rule?, Option.map_eq_some_iff, find?_eq_some_iff hdistinct, hmem, List.mem_map]
    constructor
    · rintro ⟨e, ⟨he, hid⟩, rfl⟩
      exact ⟨⟨e, he, rfl⟩, hid⟩
    · rintro ⟨⟨e, he, rfl⟩, hid⟩
      exact ⟨e, ⟨he, hid⟩, rfl⟩
  · intro id
    rw [rule?, Option.map_eq_none_iff, hnone]
  · intro id c
    simp only [condition?, Option.map_eq_some_iff, find?_eq_some_iff hdistinct, hmem]
    constructor
    · rintro ⟨e, ⟨he, hid⟩, rfl⟩
      exact ⟨e.rule, List.mem_map_of_mem he, hid, hconditions e he⟩
    · rintro ⟨r, hr, hid, hc⟩
      obtain ⟨e, he, rfl⟩ := List.mem_map.1 hr
      exact ⟨e, ⟨he, hid⟩, Except.ok.inj ((hconditions e he).symm.trans hc)⟩
  · intro id
    rw [condition?, Option.map_eq_none_iff, hnone]

/-- **What becomes of a list of rules.** If an identifier occurs twice, the list is refused for the
first rule whose identifier an earlier one has, whatever the texts are. Otherwise, if a text is no
condition, it is refused for the first such text with its fault. Otherwise there is a set, made of
the rules of the list. -/
theorem build_outcome (rules : List Rule) :
    ((∃ id, (build rules).value = .error (.repeatedId id)) ↔ ¬(rules.map (·.id)).Nodup) ∧
    (∀ id, (build rules).value = .error (.repeatedId id) ↔
      ∃ r, Rule.FirstRepeated rules r ∧ r.id = id) ∧
    ((rules.map (·.id)).Nodup →
      ((∃ id e, (build rules).value = .error (.badText id e)) ↔
        ∃ r ∈ rules, ∃ e, r.condition = .error e) ∧
      (∀ id e, (build rules).value = .error (.badText id e) ↔
        ∃ r, Rule.FirstMalformed rules r e ∧ r.id = id) ∧
      ((∀ r ∈ rules, ∃ c, r.condition = .ok c) →
        ∃ rs, (build rules).value = .ok rs ∧ MadeOf rules rs)) := by
  refine ⟨?_, fun id => build_eq_repeatedId_iff.trans firstRepeated?_nil_eq_some_iff, fun hnodup =>
    ⟨?_, fun id e => ?_, fun hconditions => ?_⟩⟩
  · simp only [build_eq_repeatedId_iff, ← firstRepeated?_nil_eq_none_iff,
      ← Option.ne_none_iff_exists', ne_eq]
  · constructor
    · rintro ⟨id, e, h⟩
      obtain ⟨r, ⟨before, after, rfl, hr, -⟩, -⟩ :=
        readEntries_eq_error_iff.1 (build_eq_badText_iff.1 h).2
      exact ⟨r, by simp, e, hr⟩
    · rintro ⟨r, hr, e, he⟩
      cases hes : readEntries rules with
      | error x => exact ⟨x.1, x.2, build_eq_badText_iff.2 ⟨hnodup, hes⟩⟩
      | ok es =>
        obtain ⟨c, hc⟩ := condition_eq_ok hes r hr
        cases he.symm.trans hc
  · rw [build_eq_badText_iff, and_iff_right hnodup, readEntries_eq_error_iff]
  · obtain ⟨es, hes⟩ := exists_readEntries hconditions
    have hbuild : (build rules).value = .ok _ := build_eq_ok_iff.2 ⟨hnodup, es, hes, rfl⟩
    exact ⟨_, hbuild, madeOf_build hbuild⟩

/-- A repeated identifier comes before a bad text, and the bad text that stands first before one
with a lower priority. -/
theorem build_outcome_mixed :
    (build [⟨3, 0, "(&a"⟩, ⟨1, 5, "&b"⟩, ⟨3, -1, "&c"⟩]).value = .error (.repeatedId 3) ∧
    (build [⟨1, 5, "&b &"⟩, ⟨2, 0, "(&a"⟩]).value = .error (.badText 1 (.unknownToken "&")) ∧
    ∃ rs, (build [⟨7, 2, "&a"⟩, ⟨4, 2, "&b"⟩, ⟨9, -1, "!&c"⟩]).value = .ok rs ∧
      rs.rule? 4 = some ⟨4, 2, "&b"⟩ ∧ rs.condition? 5 = none := by
  have hbad : (Rule.mk 1 5 "&b &").condition = .error (.unknownToken "&") := by cbv
  have ha : (Rule.mk 7 2 "&a").condition = .ok ⟨[⟨[⟨.and, false, .word "A"⟩]⟩], 0⟩ := by cbv
  have hb : (Rule.mk 4 2 "&b").condition = .ok ⟨[⟨[⟨.and, false, .word "B"⟩]⟩], 0⟩ := by cbv
  have hc : (Rule.mk 9 (-1) "!&c").condition = .ok ⟨[⟨[⟨.and, true, .word "C"⟩]⟩], 0⟩ := by cbv
  have hmade := ((build_outcome [⟨7, 2, "&a"⟩, ⟨4, 2, "&b"⟩, ⟨9, -1, "!&c"⟩]).2.2
    (by decide)).2.2 (by simp [ha, hb, hc])
  obtain ⟨rs, hrs, hmadeOf⟩ := hmade
  refine ⟨?_, ?_, rs, hrs, (hmadeOf.rule?_eq_some 4 _).2 ⟨by simp, rfl⟩,
    (hmadeOf.condition?_eq_none 5).2 (by decide)⟩
  · exact ((build_outcome _).2.1 3).2
      ⟨⟨3, -1, "&c"⟩, ⟨[⟨3, 0, "(&a"⟩, ⟨1, 5, "&b"⟩], [], rfl, by decide, by decide⟩, rfl⟩
  · exact (((build_outcome [⟨1, 5, "&b &"⟩, ⟨2, 0, "(&a"⟩]).2.2 (by decide)).2.1 1 _).2
      ⟨_, ⟨[], _, rfl, hbad, List.forall_mem_nil _⟩, rfl⟩

end RuleSet

end WordLogic
