import Mathlib
import WordLogic.Proofs.Condition.Truth
import WordLogic.Proofs.Condition.WellFormed

/-!
# The memory of an evaluation

An evaluation keeps what each group comes to, and answers further references from what it kept. In a
condition whose references go backwards this is only a saving: the answer is that of the recursion
which goes into a group anew at each reference, with the same unmet demand at the same place
(`outcome_without_memory`). The invariant behind it, `Trail.Sound`, holds of every memory that an
evaluation starts from or leaves, so an evaluation can also go on with the memory of another one
(`settle_eq_ok`).
-/

namespace WordLogic.Condition

variable {groups : List Group} {s : Sentence}

/-- From a sound memory, evaluation gives the answer of the recursion and leaves a sound memory. -/
theorem settle_eq_ok (hb : Backward groups) {index : Nat} (hi : index < groups.length)
    {trail : Trail} (ht : trail.Sound groups s) :
    ∃ o after, settle groups s index trail = .ok (o, after) ∧ direct groups s index = .ok o ∧
      after.Sound groups s := by
  obtain ⟨o, ho, -⟩ := direct_eq_ok (s := s) hb (List.getElem?_eq_getElem hi)
  obtain ⟨e, -, hd⟩ | ⟨o', after, hr, hd, hafter⟩ := (settle_direct groups s index ht).cases
  · rw [ho] at hd
    cases hd
  · exact ⟨o', after, hr, hd, hafter⟩

/-- **The memory changes no answer**, and no place of an unmet demand: evaluating a group gives what
the recursion without a memory gives. Whatever is kept at the end, of whichever group, is what the
recursion gives for that group. -/
theorem outcome_without_memory {c : Condition} (hb : Backward c.groups) {index : Nat}
    (hi : index < c.groups.length) (s : Sentence) :
    ∃ o trail, c.settled index s = .ok (o, trail) ∧ c.outcome index s = .ok o ∧
      direct c.groups s index = .ok o ∧
      (∀ unmet, o = .fails unmet → unmet.Located c.groups) ∧
      ∀ k kept, trail.known[k]? = some (some kept) → direct c.groups s k = .ok kept := by
  obtain ⟨o, trail, hr, hd, hsound⟩ := settle_eq_ok hb hi (Trail.start_sound c.groups s)
  have ho : c.outcome index s = .ok o := by
    rw [outcome_eq_direct, hd]
  refine ⟨o, trail, hr, ho, hd, ?_, hsound.known_eq⟩
  rintro unmet rfl
  exact outcome_located ho

/-- A group is referred to by a demand and by alternatives of both signs, another one by a demand and
its negation, which is the unmet one. -/
theorem outcome_without_memory_shared :
    ∃ c, ofText "(&a) (#0 | &b | !#0) !#1" = .ok c ∧ Backward c.groups ∧ 2 < c.groups.length ∧
      c.outcome 2 (Sentence.ofText "a b") = .ok (.fails (.literal 2 2 (.group .and 1 true))) ∧
      direct c.groups (Sentence.ofText "a b") 2 =
        .ok (.fails (.literal 2 2 (.group .and 1 true))) := by
  let c : Condition :=
    ⟨[⟨[.word .and "a" false]⟩,
      ⟨[.group .or 0 false, .word .or "b" false, .group .or 0 true]⟩,
      ⟨[.group .and 0 false, .group .and 1 false, .group .and 1 true]⟩], 2⟩
  have hc : ofText "(&a) (#0 | &b | !#0) !#1" = .ok c := by cbv
  have hoc : c.outcome 2 (Sentence.ofText "a b") =
      .ok (.fails (.literal 2 2 (.group .and 1 true))) := by cbv
  have hb : Backward c.groups := (ofText_wellFormed hc).backward
  have hi : 2 < c.groups.length := by decide
  obtain ⟨o, -, -, ho, hd, -⟩ := outcome_without_memory hb hi (Sentence.ofText "a b")
  rw [hoc] at ho
  cases ho
  exact ⟨c, hc, hb, hi, hoc, hd⟩

end WordLogic.Condition
