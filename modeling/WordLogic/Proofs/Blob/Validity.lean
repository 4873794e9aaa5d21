import WordLogic.Blob.Validity

/-!
# What the check of a payload accepts

`Payload.check` accepts a payload when its counts are right and its entries are those of a
well-formed rule set, and no other (`check_eq_ok_iff`). Each check on the way accepts what the
definition of a well-formed set asks of its part.
-/

namespace WordLogic.Blob

theorem forM_eq_ok_iff {α ε : Type} {f : α → Except ε Unit} {xs : List α} :
    xs.forM f = .ok () ↔ ∀ x ∈ xs, f x = .ok () := by
  induction xs with
  | nil => exact iff_of_true rfl nofun
  | cons x xs ih =>
    rw [show (x :: xs).forM f = (f x >>= fun _ => xs.forM f) from rfl, List.forall_mem_cons, ← ih]
    cases f x with
    | error e => exact iff_of_false nofun nofun
    | ok _ => exact ⟨fun h => ⟨rfl, h⟩, fun h => h.2⟩

/-! ## Conditions -/

theorem checkAtom_eq_ok_iff {rule : Int32} {index : Nat} {a : Atom} :
    checkAtom rule index a = .ok () ↔ a.Fits index := by
  cases a with
  | word w =>
    rw [checkAtom, Atom.Fits]
    by_cases h : w = "" ∨ w ≠ Text.uppercase w
    · rw [if_pos h]
      refine iff_of_false (by simp) fun hf => ?_
      rcases h with h | h
      · exact hf.1 h
      · exact h hf.2.symm
    · rw [if_neg h]
      rw [not_or, Decidable.not_not] at h
      exact iff_of_true rfl ⟨h.1, h.2.symm⟩
  | group k =>
    rw [checkAtom, Atom.Fits]
    by_cases h : index ≤ k
    · rw [if_pos h]
      exact iff_of_false (by simp) (by omega)
    · rw [if_neg h]
      exact iff_of_true rfl (by omega)

theorem checkGroup_eq_ok_iff {rule : Int32} {index : Nat} {g : Group} :
    checkGroup rule index g = .ok () ↔
      g.literals ≠ [] ∧ ∀ l ∈ g.literals, l.atom.Fits index := by
  unfold checkGroup
  split
  · rename_i h
    exact iff_of_false nofun fun hg => hg.1 h
  · rename_i h
    rw [forM_eq_ok_iff]
    simp only [checkAtom_eq_ok_iff]
    exact ⟨fun hl => ⟨h, hl⟩, fun hg => hg.2⟩

theorem checkGroups_eq_ok_iff {rule : Int32} {index : Nat} {gs : List Group} :
    checkGroups rule index gs = .ok () ↔
      ∀ (i : Nat) (g : Group), gs[i]? = some g →
        g.literals ≠ [] ∧ ∀ l ∈ g.literals, l.atom.Fits (index + i) := by
  induction gs generalizing index with
  | nil => exact iff_of_true rfl fun i g h => by simp at h
  | cons g gs ih =>
    rw [checkGroups]
    cases hg : checkGroup rule index g with
    | error e =>
      refine iff_of_false nofun fun h => ?_
      have h0 : checkGroup rule index g = .ok () := checkGroup_eq_ok_iff.2 (h 0 g rfl)
      rw [h0] at hg
      cases hg
    | ok _ =>
      rw [checkGroup_eq_ok_iff] at hg
      refine ih.trans ⟨fun h i g' hi => ?_, fun h i g' hi => ?_⟩
      · cases i with
        | zero =>
          cases hi
          exact hg
        | succ i => simpa only [Nat.add_assoc, Nat.add_comm 1] using h i g' hi
      · simpa only [Nat.add_assoc, Nat.add_comm 1] using h (i + 1) g' hi

/-- The check of a condition accepts the well-formed ones. -/
theorem checkCondition_eq_ok_iff {rule : Int32} {c : Condition} :
    checkCondition rule c = .ok () ↔ c.WellFormed := by
  unfold checkCondition
  split
  · rename_i h
    exact iff_of_false nofun fun hc => absurd hc.root_lt (by omega)
  · rename_i h
    rw [checkGroups_eq_ok_iff]
    simp only [Nat.zero_add]
    refine ⟨fun hg => ⟨by omega, fun g hm => ?_, fun i g hi => (hg i g hi).2⟩, fun hc i g hi => ?_⟩
    · obtain ⟨i, hi⟩ := List.mem_iff_getElem?.1 hm
      exact (hg i g hi).1
    · exact ⟨hc.literals_ne_nil g (List.mem_of_getElem? hi), hc.fits i g hi⟩

/-! ## Entries -/

theorem checkEntries_eq_ok_iff {taken : List Int32} {es : List Entry} :
    checkEntries taken es = .ok () ↔
      RuleSet.Fresh taken (es.map (·.rule.id)) ∧ ∀ e ∈ es, e.condition.WellFormed := by
  induction es generalizing taken with
  | nil => exact iff_of_true rfl ⟨RuleSet.fresh_nil taken, nofun⟩
  | cons e es ih =>
    rw [checkEntries, List.map_cons, RuleSet.fresh_cons, List.forall_mem_cons]
    by_cases hid : e.rule.id ∈ taken
    · rw [if_pos hid]
      exact iff_of_false nofun fun h => h.1.1 hid
    rw [if_neg hid]
    cases hc : checkCondition e.rule.id e.condition with
    | error _ =>
      refine iff_of_false nofun fun h => ?_
      rw [checkCondition_eq_ok_iff.2 h.2.1] at hc
      cases hc
    | ok _ =>
      rw [checkCondition_eq_ok_iff] at hc
      simp only [ih]
      constructor
      · rintro ⟨hfresh, hconditions⟩
        exact ⟨⟨hid, hfresh⟩, hc, hconditions⟩
      · rintro ⟨⟨-, hfresh⟩, -, hconditions⟩
        exact ⟨hfresh, hconditions⟩

/-- Neighbours in order are all in order. -/
theorem checkOrder_eq_ok_iff {es : List Entry} :
    checkOrder es = .ok () ↔ es.Pairwise fun a b => a.rule.priority ≤ b.rule.priority := by
  fun_induction checkOrder es with
  | case1 a b es h =>
    refine iff_of_false nofun fun hp => ?_
    have := (List.pairwise_cons.1 hp).1 b (by simp)
    exact absurd h (Int32.not_lt.2 this)
  | case2 a b es h ih =>
    rw [Int32.not_lt] at h
    rw [ih, List.pairwise_cons (a := a)]
    refine ⟨fun hp => ⟨fun x hx => ?_, hp⟩, fun hp => hp.2⟩
    rcases List.mem_cons.1 hx with rfl | hx
    · exact h
    · exact Int32.le_trans h ((List.pairwise_cons.1 hp).1 x hx)
  | case3 es h =>
    refine iff_of_true rfl ?_
    cases es with
    | nil => exact List.Pairwise.nil
    | cons a es =>
      cases es with
      | nil => exact List.pairwise_singleton ..
      | cons b es => exact absurd rfl (h a b es)

namespace Payload

theorem checkCounts_eq_ok_iff {p : Payload} :
    p.checkCounts = .ok () ↔
      p.ruleCount = p.entries.length ∧
        p.groupCount = (RuleSet.mk p.entries p.sourceDigest).groupCount := by
  simp only [checkCounts]
  split
  · rename_i h
    exact iff_of_true rfl h
  · rename_i h
    exact iff_of_false nofun h

/-- **The check accepts the payloads of well-formed sets**, when the counts are right. -/
theorem check_eq_ok_iff {p : Payload} :
    p.check = .ok () ↔
      (p.ruleCount = p.entries.length ∧
        p.groupCount = (RuleSet.mk p.entries p.sourceDigest).groupCount) ∧
      (RuleSet.mk p.entries p.sourceDigest).WellFormed := by
  have hsplit : p.check = .ok () ↔ p.checkCounts = .ok () ∧ checkEntries [] p.entries = .ok () ∧
      checkOrder p.entries = .ok () := by
    unfold check
    cases p.checkCounts with
    | error e => exact iff_of_false nofun nofun
    | ok _ =>
      cases checkEntries [] p.entries with
      | error e => exact iff_of_false nofun nofun
      | ok _ => exact ⟨fun h => ⟨rfl, rfl, h⟩, fun h => h.2.2⟩
  rw [hsplit, checkCounts_eq_ok_iff, checkEntries_eq_ok_iff, checkOrder_eq_ok_iff,
    RuleSet.fresh_iff_nodup]
  refine and_congr_right fun _ => ⟨?_, fun h => ?_⟩
  · rintro ⟨⟨hdistinct, hconditions⟩, hascending⟩
    exact ⟨hdistinct, hascending, hconditions⟩
  · exact ⟨⟨h.distinct, h.conditions⟩, h.ascending⟩

end Payload

end WordLogic.Blob
