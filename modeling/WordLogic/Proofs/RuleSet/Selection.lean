import Mathlib
import WordLogic.Proofs.RuleSet.Building

/-!
# The first rule that a sentence satisfies

A set checks its rules in their order until a sentence satisfies one; a lazy search does the same
with a plain list and reads the texts on the way, so a text that is no condition ends it
(`Rule.Stops`).

* `firstSatisfied_first_stop`: the lazy search answers for the first rule that ends it, whatever the
  texts after that rule are, and agrees with the set that the same rules make.
* `build_verdict_first`: the set of rules whose texts are conditions gives the verdict of the first
  rule that the sentence satisfies.
-/

namespace WordLogic

namespace Rule

variable {s : Sentence} {rules : List Rule} {r : Rule}

/-- The rule's text is a condition, and the sentence satisfies it. -/
def Holds (s : Sentence) (r : Rule) : Prop := ∃ c, r.condition = .ok c ∧ c.holds s = .ok true

/-- The rule ends a lazy search: its text is no condition, or the sentence satisfies it. -/
def Stops (s : Sentence) (r : Rule) : Prop := (∃ e, r.condition = .error e) ∨ r.Holds s

/-- The rules, with other texts in those that are checked after the rule `r` at position `i`.
`texts` gives the new text for a position and the old text there. -/
def retext (i : Nat) (r : Rule) (texts : Nat → String → String) (rules : List Rule) : List Rule :=
  rules.mapIdx fun j b => if Precedes i r j b then { b with text := texts j b.text } else b

/-- A condition that was read from a text is true or false for a sentence. -/
theorem holds_eq_ok {c : Condition} (h : r.condition = .ok c) (s : Sentence) :
    ∃ b, c.holds s = .ok b := by
  have hw : c.WellFormed := Condition.ofText_wellFormed h
  exact ⟨_, Condition.groupHolds_eq_ok hw.backward hw.root_lt s⟩

theorem holds_iff {c : Condition} (h : r.condition = .ok c) :
    r.Holds s ↔ c.holds s = .ok true := by
  constructor
  · rintro ⟨c', hc', hholds⟩
    cases h.symm.trans hc'
    exact hholds
  · exact fun hholds => ⟨c, h, hholds⟩

theorem not_holds {c : Condition} (h : r.condition = .ok c) (hfalse : c.holds s = .ok false) :
    ¬r.Holds s := by
  rw [holds_iff h, hfalse]
  exact nofun

/-- A rule whose text is a condition ends a search only when the sentence satisfies it. -/
theorem stops_iff_holds {c : Condition} (h : r.condition = .ok c) : r.Stops s ↔ r.Holds s := by
  refine or_iff_right ?_
  rintro ⟨e, he⟩
  cases h.symm.trans he

/-! ## Lazy search -/

theorem firstSatisfiedIn_malformed {e : TextError} (h : r.condition = .error e) (rs : List Rule) :
    firstSatisfiedIn s (r :: rs) =
      ⟨.error (.build (.badText r.id e)), [.rejected r.id e]⟩ := by
  rw [firstSatisfiedIn, h]

theorem firstSatisfiedIn_holds (h : r.Holds s) (rs : List Rule) :
    firstSatisfiedIn s (r :: rs) = ⟨.ok (some r.verdict), []⟩ := by
  obtain ⟨c, hc, hholds⟩ := h
  rw [firstSatisfiedIn, hc]
  simp only [hholds]

/-- A rule that does not end the search is passed over. -/
theorem firstSatisfiedIn_next (h : ¬r.Stops s) (rs : List Rule) :
    firstSatisfiedIn s (r :: rs) = firstSatisfiedIn s rs := by
  cases hc : r.condition with
  | error e => exact absurd (.inl ⟨e, hc⟩) h
  | ok c =>
    obtain ⟨b, hb⟩ := holds_eq_ok hc s
    cases b with
    | true => exact absurd (.inr ⟨c, hc, hb⟩) h
    | false =>
      rw [firstSatisfiedIn, hc]
      simp only [hb]

theorem firstSatisfiedIn_append {before : List Rule} (h : ∀ b ∈ before, ¬b.Stops s)
    (rs : List Rule) : firstSatisfiedIn s (before ++ rs) = firstSatisfiedIn s rs := by
  induction before with
  | nil => rfl
  | cons b before ih =>
    obtain ⟨hb, hbefore⟩ := List.forall_mem_cons.1 h
    rw [List.cons_append, firstSatisfiedIn_next hb, ih hbefore]

/-- What follows a rule that ends the search is not looked at. -/
theorem firstSatisfiedIn_of_stops (h : r.Stops s) (rs : List Rule) :
    firstSatisfiedIn s (r :: rs) = firstSatisfiedIn s [r] := by
  rcases h with ⟨e, he⟩ | hholds
  · rw [firstSatisfiedIn_malformed he, firstSatisfiedIn_malformed he]
  · rw [firstSatisfiedIn_holds hholds, firstSatisfiedIn_holds hholds]

/-- The search answers as it does for the first rule that ends it alone. -/
theorem firstSatisfied_of_isFirst {sentence : String} {i : Nat}
    (h : IsFirst (Stops (Sentence.ofText sentence)) rules i r) :
    firstSatisfied rules sentence = firstSatisfiedIn (Sentence.ofText sentence) [r] := by
  obtain ⟨before, after, hsort, hbefore⟩ := sort_of_isFirst h
  rw [firstSatisfied, hsort, firstSatisfiedIn_append hbefore, firstSatisfiedIn_of_stops h.property]

theorem firstSatisfied_eq_none {sentence : String}
    (h : ∀ r ∈ rules, ¬r.Stops (Sentence.ofText sentence)) :
    firstSatisfied rules sentence = ⟨.ok none, []⟩ := by
  have hsort : ∀ r ∈ sort rules, ¬r.Stops (Sentence.ofText sentence) :=
    fun r hr => h r (mem_sort.1 hr)
  rw [firstSatisfied, ← List.append_nil (sort rules), firstSatisfiedIn_append hsort]
  rfl

/-- Texts of rules that are checked later have no part in which rule is the first. -/
theorem IsFirst.retext {P : Rule → Prop} {i : Nat} (h : IsFirst P rules i r)
    (texts : Nat → String → String) : IsFirst P (retext i r texts rules) i r := by
  refine h.congr ?_ fun j b hj hprec => ?_
  · rw [Rule.retext, List.getElem?_mapIdx, h.getElem?_eq, Option.map_some,
      if_neg (not_precedes_self i r)]
  · rw [Rule.retext, List.getElem?_mapIdx] at hj
    obtain ⟨a, ha, rfl⟩ := Option.map_eq_some_iff.1 hj
    by_cases hlater : Precedes i r j a
    · rw [if_pos hlater] at hprec
      exact absurd hprec (not_precedes_of_precedes hlater)
    · rw [if_neg hlater, ha]

end Rule

/-! ## Sets -/

namespace RuleSet

variable {s : Sentence} {rules : List Rule} {rs : RuleSet}

/-- Entries are searched as their rules are. -/
theorem firstMatch_eq_firstSatisfiedIn (s : Sentence) {es : List Entry}
    (h : ∀ e ∈ es, e.rule.condition = .ok e.condition) :
    ∃ v, firstMatch s es = .ok v ∧
      (Rule.firstSatisfiedIn s (es.map (·.rule))).value = .ok v.value := by
  induction es with
  | nil => exact ⟨_, rfl, rfl⟩
  | cons e es ih =>
    obtain ⟨he, hes⟩ := List.forall_mem_cons.1 h
    obtain ⟨v, hv, hvalue⟩ := ih hes
    have hw : e.condition.WellFormed := Condition.ofText_wellFormed he
    obtain ⟨o, ho, -⟩ := Condition.outcome_eq_ok hw.backward hw.root_lt s
    have hholds : e.condition.holds s = .ok o.isHolds := by
      rw [Condition.holds, Condition.groupHolds, ho]
      rfl
    rw [firstMatch, ho, List.map_cons, Rule.firstSatisfiedIn, he]
    simp only [hholds]
    cases o with
    | holds => exact ⟨_, rfl, rfl⟩
    | fails unmet =>
      simp only [hv]
      exact ⟨_, rfl, hvalue⟩

/-- The set of some rules and the lazy search through them give one verdict. -/
theorem verdict_eq_firstSatisfied (h : (build rules).value = .ok rs) (sentence : String) :
    ∃ v, rs.verdict (Sentence.ofText sentence) = .ok v ∧
      (Rule.firstSatisfied rules sentence).value = .ok v.value := by
  obtain ⟨-, es, hes, rfl⟩ := build_eq_ok_iff.1 h
  obtain ⟨hrules, hconditions⟩ := readEntries_eq_ok hes
  have hsorted : ∀ e ∈ sortEntries es, e.rule.condition = .ok e.condition :=
    fun e he => hconditions e ((sortEntries_perm es).mem_iff.1 he)
  obtain ⟨v, hv, hvalue⟩ := firstMatch_eq_firstSatisfiedIn (Sentence.ofText sentence) hsorted
  refine ⟨v, hv, ?_⟩
  rw [Rule.firstSatisfied, ← hrules, ← map_rule_sortEntries]
  exact hvalue

/-- **A lazy search answers for the first rule that ends it.** If the text of that rule is no
condition, the answer is its fault, else its verdict; without such a rule there is no verdict. The
texts of the rules that are checked later do not matter. If the rules make a set, the set gives the
same verdict. -/
theorem firstSatisfied_first_stop (rules : List Rule) (sentence : String) :
    (∀ i r, Rule.IsFirst (Rule.Stops (Sentence.ofText sentence)) rules i r →
      (∀ e, r.condition = .error e →
        (Rule.firstSatisfied rules sentence).value = .error (.build (.badText r.id e))) ∧
      (r.Holds (Sentence.ofText sentence) →
        (Rule.firstSatisfied rules sentence).value = .ok (some ⟨r.id, r.priority⟩)) ∧
      ∀ texts, Rule.firstSatisfied (Rule.retext i r texts rules) sentence =
        Rule.firstSatisfied rules sentence) ∧
    ((¬∃ i r, Rule.IsFirst (Rule.Stops (Sentence.ofText sentence)) rules i r) →
      (Rule.firstSatisfied rules sentence).value = .ok none) ∧
    ∀ rs, (build rules).value = .ok rs → ∃ v, rs.verdict (Sentence.ofText sentence) = .ok v ∧
      (Rule.firstSatisfied rules sentence).value = .ok v.value := by
  refine ⟨fun i r h => ⟨fun e he => ?_, fun hholds => ?_, fun texts => ?_⟩, fun h => ?_,
    fun rs h => verdict_eq_firstSatisfied h sentence⟩
  · rw [Rule.firstSatisfied_of_isFirst h, Rule.firstSatisfiedIn_malformed he]
  · rw [Rule.firstSatisfied_of_isFirst h, Rule.firstSatisfiedIn_holds hholds, Rule.verdict]
  · rw [Rule.firstSatisfied_of_isFirst h, Rule.firstSatisfied_of_isFirst (h.retext texts)]
  · rw [Rule.firstSatisfied_eq_none fun r hr hstops => h (Rule.exists_isFirst hr hstops)]

/-- The text that is no condition and the rule that the sentence satisfies have one priority, and
the former stands first; the rule with a lower priority does not end the search. -/
theorem firstSatisfied_first_stop_tie :
    (Rule.firstSatisfied [⟨7, 3, "(&a"⟩, ⟨7, 3, "&a"⟩, ⟨5, -1, "!&a"⟩] "a").value =
      .error (.build (.badText 7 (.unpaired "(&a"))) := by
  have hbad : (Rule.mk 7 3 "(&a").condition = .error (.unpaired "(&a") := by cbv
  have hnext : (Rule.mk 5 (-1) "!&a").condition =
      .ok ⟨[⟨[⟨.and, true, .word "A"⟩]⟩], 0⟩ := by cbv
  have hfails : ¬(Rule.mk 5 (-1) "!&a").Stops (Sentence.ofText "a") := by
    rw [Rule.stops_iff_holds hnext]
    exact Rule.not_holds hnext (by cbv)
  have hfirst : Rule.IsFirst (Rule.Stops (Sentence.ofText "a"))
      [⟨7, 3, "(&a"⟩, ⟨7, 3, "&a"⟩, ⟨5, -1, "!&a"⟩] 0 ⟨7, 3, "(&a"⟩ := by
    refine ⟨rfl, .inl ⟨_, hbad⟩, fun j b hj hprec => ?_⟩
    obtain _ | _ | _ | j := j
    · cases hj
      exact absurd hprec (by decide)
    · cases hj
      exact absurd hprec (by decide)
    · cases hj
      exact hfails
    · cases hj
  exact ((firstSatisfied_first_stop _ "a").1 0 _ hfirst).1 _ hbad

/-- **First match by priority.** Rules with distinct identifiers whose texts are conditions make a
set, and its verdict is for the rule that is checked first among those that the sentence satisfies.
There is no verdict exactly when the sentence satisfies no rule. -/
theorem build_verdict_first {rules : List Rule} (hids : (rules.map (·.id)).Nodup)
    (htexts : ∀ r ∈ rules, ∃ c, r.condition = .ok c) (sentence : String) :
    ∃ rs v, (build rules).value = .ok rs ∧ rs.verdict (Sentence.ofText sentence) = .ok v ∧
      (∀ w, v.value = some w ↔ ∃ i r,
        Rule.IsFirst (Rule.Holds (Sentence.ofText sentence)) rules i r ∧
          w = ⟨r.id, r.priority⟩) ∧
      (v.value = none ↔ ∀ r ∈ rules, ¬r.Holds (Sentence.ofText sentence)) := by
  obtain ⟨es, hes⟩ := exists_readEntries htexts
  have hbuild : (build rules).value = .ok _ := build_eq_ok_iff.2 ⟨hids, es, hes, rfl⟩
  obtain ⟨v, hv, hvalue⟩ := verdict_eq_firstSatisfied hbuild sentence
  -- no text ends the lazy search by being no condition
  have hstops : ∀ r ∈ rules,
      (r.Stops (Sentence.ofText sentence) ↔ r.Holds (Sentence.ofText sentence)) := by
    intro r hr
    obtain ⟨c, hc⟩ := htexts r hr
    exact Rule.stops_iff_holds hc
  have hfirst : ∀ i r, Rule.IsFirst (Rule.Holds (Sentence.ofText sentence)) rules i r →
      v.value = some ⟨r.id, r.priority⟩ := by
    intro i r h
    have hstop := h.of_iff fun b hb => (hstops b hb).symm
    rw [Rule.firstSatisfied_of_isFirst hstop, Rule.firstSatisfiedIn_holds h.property] at hvalue
    exact (Except.ok.inj hvalue).symm
  have hnone : (∀ r ∈ rules, ¬r.Holds (Sentence.ofText sentence)) → v.value = none := by
    intro h
    rw [Rule.firstSatisfied_eq_none fun r hr => mt (hstops r hr).1 (h r hr)] at hvalue
    exact (Except.ok.inj hvalue).symm
  refine ⟨_, v, hbuild, hv, fun w => ⟨fun hw => ?_, ?_⟩, fun h r hr hholds => ?_, hnone⟩
  · obtain ⟨r, hr, hholds⟩ : ∃ r ∈ rules, r.Holds (Sentence.ofText sentence) := by
      refine Classical.byContradiction fun hno => ?_
      rw [hnone fun r hr hholds => hno ⟨r, hr, hholds⟩] at hw
      cases hw
    obtain ⟨i, a, ha⟩ := Rule.exists_isFirst hr hholds
    exact ⟨i, a, ha, Option.some.inj (hw.symm.trans (hfirst i a ha))⟩
  · rintro ⟨i, r, h, rfl⟩
    exact hfirst i r h
  · obtain ⟨i, a, ha⟩ := Rule.exists_isFirst hr hholds
    rw [hfirst i a ha] at h
    cases h

/-- Of two rules of one priority that the sentence satisfies, the one that stands first is found,
behind a rule of a lower priority that the sentence fails. -/
theorem build_verdict_first_tie :
    ∃ rs v, (build [⟨2, 5, "&a | &b"⟩, ⟨1, 5, "&a"⟩, ⟨3, 0, "&a &b"⟩]).value = .ok rs ∧
      rs.verdict (Sentence.ofText "a") = .ok v ∧ v.value = some ⟨2, 5⟩ := by
  have h₁ : (Rule.mk 2 5 "&a | &b").condition =
      .ok ⟨[⟨[⟨.or, false, .word "A"⟩, ⟨.or, false, .word "B"⟩]⟩], 0⟩ := by cbv
  have h₂ : (Rule.mk 1 5 "&a").condition = .ok ⟨[⟨[⟨.and, false, .word "A"⟩]⟩], 0⟩ := by cbv
  have h₃ : (Rule.mk 3 0 "&a &b").condition =
      .ok ⟨[⟨[⟨.and, false, .word "A"⟩, ⟨.and, false, .word "B"⟩]⟩], 0⟩ := by cbv
  have hholds : (Rule.mk 2 5 "&a | &b").Holds (Sentence.ofText "a") :=
    (Rule.holds_iff h₁).2 (by cbv)
  have hfails : ¬(Rule.mk 3 0 "&a &b").Holds (Sentence.ofText "a") :=
    Rule.not_holds h₃ (by cbv)
  have hfirst : Rule.IsFirst (Rule.Holds (Sentence.ofText "a"))
      [⟨2, 5, "&a | &b"⟩, ⟨1, 5, "&a"⟩, ⟨3, 0, "&a &b"⟩] 0 ⟨2, 5, "&a | &b"⟩ := by
    refine ⟨rfl, hholds, fun j b hj hprec => ?_⟩
    obtain _ | _ | _ | j := j
    · cases hj
      exact absurd hprec (by decide)
    · cases hj
      exact absurd hprec (by decide)
    · cases hj
      exact hfails
    · cases hj
  have hids : (List.map (·.id) [Rule.mk 2 5 "&a | &b", ⟨1, 5, "&a"⟩, ⟨3, 0, "&a &b"⟩]).Nodup := by
    decide
  have htexts : ∀ r ∈ [Rule.mk 2 5 "&a | &b", ⟨1, 5, "&a"⟩, ⟨3, 0, "&a &b"⟩],
      ∃ c, r.condition = .ok c := by
    simp [h₁, h₂, h₃]
  obtain ⟨rs, v, hrs, hv, hsome, -⟩ := build_verdict_first hids htexts "a"
  exact ⟨rs, v, hrs, hv, (hsome _).2 ⟨0, _, hfirst, rfl⟩⟩

end RuleSet

end WordLogic
