import Mathlib
import WordLogic.Proofs.RuleSet.Reachable

/-!
# Reports and verdicts

A verdict and a report are found by two searches through the rules of a set. Both go by what
becomes of the rules one after the other (`Checked`): a rule that fails is passed over for its
reason, and one that holds ends the search.

* `Checked.reportOn`, `Checked.firstMatch`: what each of the two searches makes of that, with its
  log.
* `Checked.exists_upToFirst`: the rules that are checked are those up to the first that holds.
* `reachable_report`: hence the report and the verdict of a reachable set agree.
-/

namespace WordLogic

/-- The part of a list up to the first element with the property, which is in it; the whole list if
there is none. -/
structure UpToFirst {α : Type} (P : α → Prop) (xs part : List α) : Prop where
  part_of : part <+: xs
  before : ∀ x ∈ part.dropLast, ¬P x
  ended : part = xs ∨ ∃ x ∈ part.getLast?, P x

namespace UpToFirst

variable {α : Type} {P : α → Prop} {x : α} {xs part : List α}

theorem nil : UpToFirst P [] [] := ⟨List.prefix_rfl, nofun, .inl rfl⟩

theorem found (h : P x) (xs : List α) : UpToFirst P (x :: xs) [x] :=
  ⟨⟨xs, rfl⟩, nofun, .inr ⟨x, rfl, h⟩⟩

theorem next (h : ¬P x) (hs : UpToFirst P xs part) : UpToFirst P (x :: xs) (x :: part) where
  part_of := (List.prefix_cons_inj x).2 hs.part_of
  before := by
    cases part with
    | nil => exact nofun
    | cons y part => exact List.forall_mem_cons.2 ⟨h, hs.before⟩
  ended := by
    rcases hs.ended with rfl | ⟨y, hy, hP⟩
    · exact .inl rfl
    · refine .inr ⟨y, ?_, hP⟩
      rw [List.getLast?_cons, hy]
      rfl

end UpToFirst

namespace Condition

variable {c : Condition} {s : Sentence}

theorem reason?_eq_none_iff : c.reason? s = .ok none ↔ c.outcome c.root s = .ok .holds := by
  rw [reason?]
  cases c.outcome c.root s with
  | error f => simp [Except.map]
  | ok o => cases o <;> simp [Except.map]

theorem reason?_eq_some_iff {reason : Reason} :
    c.reason? s = .ok (some reason) ↔
      ∃ unmet, c.outcome c.root s = .ok (.fails unmet) ∧ unmet.reason = reason := by
  rw [reason?]
  cases c.outcome c.root s with
  | error f => simp [Except.map]
  | ok o => cases o <;> simp [Except.map]

/-- A reason is given exactly when the condition does not hold. -/
theorem holds_of_reason? {reason : Option Reason} (h : c.reason? s = .ok reason) :
    c.holds s = .ok reason.isNone := by
  rw [holds, groupHolds]
  cases reason with
  | none =>
    rw [reason?_eq_none_iff.1 h]
    rfl
  | some reason =>
    obtain ⟨unmet, ho, -⟩ := reason?_eq_some_iff.1 h
    rw [ho]
    rfl

end Condition

/-- The sentence satisfies the rule. -/
def Entry.Holds (s : Sentence) (e : Entry) : Prop := e.condition.holds s = .ok true

/-- What the log notes of a rule that was checked, if it did not match. -/
def Check.record? (c : Check) : Option LogRecord := c.reason.map (.unmatched c.rule)

/-- The verdict for a rule that was checked, if it matched. -/
def Check.verdict? (c : Check) : Option Verdict :=
  if c.passed then some ⟨c.rule, c.priority⟩ else none

theorem Check.verdict?_eq_some_iff {c : Check} {w : Verdict} :
    c.verdict? = some w ↔ c.passed = true ∧ w = ⟨c.rule, c.priority⟩ := by
  rw [verdict?, Option.ite_none_right_eq_some, Option.some.injEq, eq_comm (a := w)]

theorem Check.map_message_record? (c : Check) :
    c.record?.map LogRecord.message = c.reason.map fun reason =>
      "sentence does not match rule " ++ toString c.rule ++ ": " ++ reason.message := by
  rw [record?, Option.map_map]
  rfl

/-- The check tells what becomes of the rule. -/
structure Check.IsOf (s : Sentence) (e : Entry) (c : Check) : Prop where
  rule_eq : c.rule = e.rule.id
  priority_eq : c.priority = e.rule.priority
  reason?_eq : e.condition.reason? s = .ok c.reason

namespace RuleSet

variable {s : Sentence} {es : List Entry} {cs : List Check} {rs : RuleSet}

/-! ## What becomes of the rules -/

/-- What becomes of the rules one after the other. What follows a rule that holds is not
checked. -/
inductive Checked (s : Sentence) : List Entry → List Check → Prop
  | nil : Checked s [] []
  | passed {e : Entry} (h : e.condition.reason? s = .ok none) (es : List Entry) :
      Checked s (e :: es) [⟨e.rule.id, e.rule.priority, none⟩]
  | failed {e : Entry} {reason : Reason} {es : List Entry} {cs : List Check}
      (h : e.condition.reason? s = .ok (some reason)) (hs : Checked s es cs) :
      Checked s (e :: es) (⟨e.rule.id, e.rule.priority, some reason⟩ :: cs)

theorem exists_checked (s : Sentence) (h : ∀ e ∈ es, e.condition.WellFormed) :
    ∃ cs, Checked s es cs := by
  induction es with
  | nil => exact ⟨[], .nil⟩
  | cons e es ih =>
    obtain ⟨he, hes⟩ := List.forall_mem_cons.1 h
    obtain ⟨reason, hr⟩ := reason?_eq_ok he s
    cases reason with
    | none => exact ⟨_, .passed hr es⟩
    | some reason =>
      obtain ⟨cs, hcs⟩ := ih hes
      exact ⟨_, .failed hr hcs⟩

/-- The report has what became of the rules, and its log a record of each that did not match. -/
theorem Checked.reportOn (h : Checked s es cs) :
    RuleSet.reportOn s es = .ok ⟨⟨cs.findSome? Check.verdict?, cs⟩, cs.filterMap Check.record?⟩ := by
  induction h with
  | nil => rfl
  | passed h es =>
    rw [RuleSet.reportOn, h]
    rfl
  | failed h _ ih =>
    rw [RuleSet.reportOn, h]
    simp only [ih]
    rfl

/-- A rule that the sentence fails is noted with its reason. -/
theorem firstMatch_failed {e : Entry} {reason : Reason}
    (h : e.condition.reason? s = .ok (some reason)) {v : Logged (Option Verdict)}
    (hv : firstMatch s es = .ok v) :
    firstMatch s (e :: es) = .ok ⟨v.value, .unmatched e.rule.id reason :: v.log⟩ := by
  obtain ⟨unmet, ho, rfl⟩ := Condition.reason?_eq_some_iff.1 h
  rw [firstMatch, ho, hv]

/-- A rule that the sentence satisfies ends the search. -/
theorem firstMatch_passed {e : Entry} (h : e.condition.reason? s = .ok none) (es : List Entry) :
    firstMatch s (e :: es) = .ok ⟨some e.rule.verdict, [.matched e.rule.id]⟩ := by
  rw [firstMatch, Condition.reason?_eq_none_iff.1 h]

/-- The verdict is that of the report. Its log has the same records, and one of the match. -/
theorem Checked.firstMatch (h : Checked s es cs) :
    RuleSet.firstMatch s es = .ok ⟨cs.findSome? Check.verdict?,
      cs.filterMap Check.record? ++ (cs.filter (·.passed)).map (.matched ·.rule)⟩ := by
  induction h with
  | nil => rfl
  | passed h es => exact firstMatch_passed h es
  | failed h _ ih => exact firstMatch_failed h ih

/-- The rules that are checked are those up to the first that holds. -/
theorem Checked.exists_upToFirst (h : Checked s es cs) :
    ∃ checked, UpToFirst (Entry.Holds s) es checked ∧
      List.Forall₂ (Check.IsOf s) checked cs := by
  induction h with
  | nil => exact ⟨[], .nil, .nil⟩
  | @passed e h es =>
    have hholds : e.Holds s := Condition.holds_of_reason? h
    exact ⟨[e], .found hholds es, .cons ⟨rfl, rfl, h⟩ .nil⟩
  | @failed e reason es cs h _ ih =>
    obtain ⟨checked, hfirst, hchecks⟩ := ih
    have hfails : ¬e.Holds s := by
      rw [Entry.Holds, Condition.holds_of_reason? h]
      exact nofun
    exact ⟨e :: checked, hfirst.next hfails, .cons ⟨rfl, rfl, h⟩ hchecks⟩

/-- Only the last rule that is checked can match. -/
theorem Checked.dropLast_failed (h : Checked s es cs) : ∀ c ∈ cs.dropLast, c.passed = false := by
  induction h with
  | nil => exact nofun
  | passed => exact nofun
  | @failed e reason es cs h hs ih =>
    cases cs with
    | nil => exact nofun
    | cons c cs => exact List.forall_mem_cons.2 ⟨rfl, ih⟩

/-- The verdict is for the last rule that is checked. -/
theorem Checked.verdict_eq (h : Checked s es cs) :
    cs.findSome? Check.verdict? = cs.getLast?.bind Check.verdict? := by
  induction h with
  | nil => rfl
  | passed => rfl
  | @failed e reason es cs h hs ih =>
    rw [List.findSome?_cons, List.getLast?_cons]
    cases cs with
    | nil => rfl
    | cons c cs => exact ih

/-! ## Checks and their rules -/

theorem map_checks_eq (h : List.Forall₂ (Check.IsOf s) es cs) :
    cs.map (fun c => (c.rule, c.priority)) = es.map fun e => (e.rule.id, e.rule.priority) := by
  induction h with
  | nil => rfl
  | cons hc _ ih => rw [List.map_cons, List.map_cons, ih, hc.rule_eq, hc.priority_eq]

/-- The checks that did not match are those of the rules that the sentence fails. -/
theorem map_failed_eq (h : List.Forall₂ (Check.IsOf s) es cs) :
    (cs.filter (!·.passed)).map (·.rule) =
      (es.filter fun e => e.condition.holds s = .ok false).map (·.rule.id) := by
  induction h with
  | nil => rfl
  | @cons e c es cs hc _ ih =>
    have hholds : (e.condition.holds s = .ok false) ↔ c.passed = false := by
      rw [Condition.holds_of_reason? hc.reason?_eq, Except.ok.injEq, Check.passed]
    cases hp : c.passed with
    | true =>
      rw [List.filter_cons_of_neg (by simp [hp]), List.filter_cons_of_neg (by simp [hholds, hp]), ih]
    | false =>
      rw [List.filter_cons_of_pos (by simp [hp]), List.filter_cons_of_pos (by simp [hholds, hp]),
        List.map_cons, List.map_cons, ih, hc.rule_eq]

/-! ## Logs -/

/-- The debug records of a log that is kept at the given detail. -/
def debugRecords (detail : LogLevel) (log : List LogRecord) : List LogRecord :=
  log.filter fun r => r.shownAt detail && r.level == .debug

theorem debugRecords_append (detail : LogLevel) (log log' : List LogRecord) :
    debugRecords detail (log ++ log') = debugRecords detail log ++ debugRecords detail log' :=
  List.filter_append ..

/-- The records of rules that did not match are debug records. -/
theorem debugRecords_records (detail : LogLevel) (cs : List Check) :
    debugRecords detail (cs.filterMap Check.record?) = cs.filterMap Check.record? := by
  refine List.filter_eq_self.2 fun r hr => ?_
  obtain ⟨c, -, hc⟩ := List.mem_filterMap.1 hr
  obtain ⟨reason, -, rfl⟩ := Option.map_eq_some_iff.1 hc
  cases detail <;> rfl

/-- The record of a match is none. -/
theorem debugRecords_matched (detail : LogLevel) (cs : List Check) :
    debugRecords detail (cs.map (.matched ·.rule)) = [] := by
  refine List.filter_eq_nil_iff.2 fun r hr => ?_
  obtain ⟨c, -, rfl⟩ := List.mem_map.1 hr
  cases detail <;> exact Bool.false_ne_true

/-! ## Reachable sets -/

/-- A verdict and a report tell the same of the rules of a set. -/
structure Agree (rs : RuleSet) (s : Sentence) (v : Logged (Option Verdict)) (r : Logged Report) :
    Prop where
  verdict : r.value.verdict = v.value
  /-- The rules that are checked are those up to the first that holds, each with its reason. -/
  checks : ∃ checked, UpToFirst (Entry.Holds s) rs.entries checked ∧
    r.value.checks.map (fun c => (c.rule, c.priority)) = rs.order.take checked.length ∧
    List.Forall₂ (Check.IsOf s) checked r.value.checks ∧
    r.value.failed = (checked.filter fun e => e.condition.holds s = .ok false).map (·.rule.id)
  /-- Only the last rule that is checked can match. -/
  before : ∀ c ∈ r.value.checks.dropLast, c.passed = false
  /-- It matches when there is a verdict, and the verdict is for it. -/
  last : ∀ w, v.value = some w ↔
    ∃ c ∈ r.value.checks.getLast?, c.passed = true ∧ w = ⟨c.rule, c.priority⟩
  /-- Both note each rule that was checked and did not match, with its reason. -/
  records : ∀ detail,
    debugRecords detail v.log = r.value.checks.filterMap Check.record? ∧
      debugRecords detail r.log = r.value.checks.filterMap Check.record?
  messages : (r.value.checks.filterMap Check.record?).map LogRecord.message =
    r.value.checks.filterMap fun c => c.reason.map fun reason =>
      "sentence does not match rule " ++ toString c.rule ++ ": " ++ reason.message

/-- **Verdict and report agree** for every reachable set. -/
theorem reachable_report {rs : RuleSet} (h : rs.Reachable) (s : Sentence) :
    ∃ v r, rs.verdict s = .ok v ∧ rs.report s = .ok r ∧ Agree rs s v r := by
  obtain ⟨cs, hcs⟩ := exists_checked s h.wellFormed.conditions
  obtain ⟨checked, hfirst, hchecks⟩ := hcs.exists_upToFirst
  refine ⟨_, _, hcs.firstMatch, hcs.reportOn, rfl, ⟨checked, hfirst, ?_, hchecks,
    map_failed_eq hchecks⟩, hcs.dropLast_failed, fun w => ?_, fun detail => ⟨?_, ?_⟩, ?_⟩
  · rw [map_checks_eq hchecks, order, ← List.map_take,
      ← List.prefix_iff_eq_take.1 hfirst.part_of]
  · simp only [hcs.verdict_eq, Option.bind_eq_some_iff, Check.verdict?_eq_some_iff, Option.mem_def]
  · rw [debugRecords_append, debugRecords_records, debugRecords_matched, List.append_nil]
  · exact debugRecords_records detail cs
  · simp only [List.map_filterMap, Check.map_message_record?]

/-- The rule that is checked second matches; the third is not checked. -/
theorem reachable_report_second :
    ∃ rs v r, (build [⟨5, 1, "&a"⟩, ⟨7, 2, "&a"⟩, ⟨6, 0, "!&a | &b"⟩]).value = .ok rs ∧
      rs.verdict (Sentence.ofText "a") = .ok v ∧ rs.report (Sentence.ofText "a") = .ok r ∧
      v.value = some ⟨5, 1⟩ ∧ r.value.failed = [6] ∧ Agree rs (Sentence.ofText "a") v r := by
  let first : Entry := ⟨⟨6, 0, "!&a | &b"⟩, ⟨[⟨[.word .or "a" true, .word .or "b" false]⟩], 0⟩⟩
  let second : Entry := ⟨⟨5, 1, "&a"⟩, ⟨[⟨[.word .and "a" false]⟩], 0⟩⟩
  let third : Entry := ⟨⟨7, 2, "&a"⟩, ⟨[⟨[.word .and "a" false]⟩], 0⟩⟩
  have hbuild : (build [⟨5, 1, "&a"⟩, ⟨7, 2, "&a"⟩, ⟨6, 0, "!&a | &b"⟩]).value =
      .ok ⟨[first, second, third], none⟩ := by cbv
  obtain ⟨v, r, hv, hr, hagree⟩ := reachable_report (.built hbuild) (Sentence.ofText "a")
  have hv' : verdict ⟨[first, second, third], none⟩ (Sentence.ofText "a") =
      .ok ⟨some ⟨5, 1⟩, [.unmatched 6 (.noAlternative ["!&A", "&B"]), .matched 5]⟩ := by cbv
  have hr' : report ⟨[first, second, third], none⟩ (Sentence.ofText "a") =
      .ok ⟨⟨some ⟨5, 1⟩, [⟨6, 0, some (.noAlternative ["!&A", "&B"])⟩, ⟨5, 1, none⟩]⟩,
        [.unmatched 6 (.noAlternative ["!&A", "&B"])]⟩ := by cbv
  cases hv.symm.trans hv'
  cases hr.symm.trans hr'
  exact ⟨_, _, _, hbuild, hv, hr, rfl, rfl, hagree⟩

end RuleSet

end WordLogic
