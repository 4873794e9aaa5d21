import WordLogic.Rule

/-!
# The order of checking

Rules are checked by ascending priority, and those of one priority in the order of the list
(`Precedes`). `IsFirst` names the rule that comes first in this order among those with a property.
The sorted list agrees with it: no rule that stands before that one has the property
(`sort_of_isFirst`). It is the list that `StablySorted` describes (`sort_stablySorted`).
-/

namespace WordLogic.Rule

/-- The rule `a` at position `i` of a list is checked before the rule `b` at position `j`: its
priority is lower, or it is the same and `a` stands before `b`. -/
def Precedes (i : Nat) (a : Rule) (j : Nat) (b : Rule) : Prop :=
  a.priority < b.priority ∨ a.priority = b.priority ∧ i < j

instance (i : Nat) (a : Rule) (j : Nat) (b : Rule) : Decidable (Precedes i a j b) :=
  inferInstanceAs (Decidable (_ ∨ _))

/-- Of the rules with the property, `r` at position `i` is the one that is checked first. -/
structure IsFirst (P : Rule → Prop) (rules : List Rule) (i : Nat) (r : Rule) : Prop where
  getElem?_eq : rules[i]? = some r
  property : P r
  first : ∀ j b, rules[j]? = some b → Precedes j b i r → ¬P b

theorem not_precedes_self (i : Nat) (a : Rule) : ¬Precedes i a i a := by
  rintro (h | ⟨-, h⟩)
  · exact Int32.lt_irrefl h
  · exact Nat.lt_irrefl i h

theorem not_precedes_of_precedes {i j : Nat} {a b : Rule} (h : Precedes i a j b) :
    ¬Precedes j b i a := by
  intro h'
  rcases h with hlt | ⟨heq, hlt⟩ <;> rcases h' with hlt' | ⟨heq', hlt'⟩
  · exact Int32.lt_irrefl (Int32.lt_trans hlt hlt')
  · exact Int32.lt_irrefl (heq' ▸ hlt)
  · exact Int32.lt_irrefl (heq ▸ hlt')
  · omega

/-- Of two rules at different positions one is checked before the other. -/
theorem precedes_total {i j : Nat} (a b : Rule) (h : i ≠ j) :
    Precedes i a j b ∨ Precedes j b i a := by
  unfold Precedes
  by_cases heq : a.priority = b.priority
  · rcases Nat.lt_or_gt_of_ne h with hlt | hlt
    · exact .inl (.inr ⟨heq, hlt⟩)
    · exact .inr (.inr ⟨heq.symm, hlt⟩)
  · rcases Int32.le_total a.priority b.priority with hle | hle
    · exact .inl (.inl (Int32.lt_iff_le_and_ne.2 ⟨hle, heq⟩))
    · exact .inr (.inl (Int32.lt_iff_le_and_ne.2 ⟨hle, Ne.symm heq⟩))

/-- There is only one first rule with a property. -/
theorem IsFirst.unique {P : Rule → Prop} {rules : List Rule} {i j : Nat} {a b : Rule}
    (ha : IsFirst P rules i a) (hb : IsFirst P rules j b) : i = j ∧ a = b := by
  by_cases hij : i = j
  · subst hij
    exact ⟨rfl, Option.some.inj (ha.getElem?_eq.symm.trans hb.getElem?_eq)⟩
  · rcases precedes_total a b hij with h | h
    · exact absurd ha.property (hb.first i a ha.getElem?_eq h)
    · exact absurd hb.property (ha.first j b hb.getElem?_eq h)

/-- The first rule with a property stays the first when it keeps the property, and what is checked
before it stays without. -/
theorem IsFirst.congr {P : Rule → Prop} {rules rules' : List Rule} {i : Nat} {r : Rule}
    (h : IsFirst P rules i r) (hr : rules'[i]? = some r)
    (hbefore : ∀ j b, rules'[j]? = some b → Precedes j b i r → rules[j]? = some b) :
    IsFirst P rules' i r where
  getElem?_eq := hr
  property := h.property
  first j b hj hb := h.first j b (hbefore j b hj hb) hb

/-- Properties that the rules of a list share have the same first rule. -/
theorem IsFirst.of_iff {P Q : Rule → Prop} {rules : List Rule} {i : Nat} {r : Rule}
    (h : IsFirst P rules i r) (hPQ : ∀ b ∈ rules, P b ↔ Q b) : IsFirst Q rules i r where
  getElem?_eq := h.getElem?_eq
  property := (hPQ r (List.mem_of_getElem? h.getElem?_eq)).1 h.property
  first j b hj hprec hQ := h.first j b hj hprec ((hPQ b (List.mem_of_getElem? hj)).2 hQ)

/-! ## Sorted lists -/

/-- The rules with their positions, sorted. -/
private def sortIndexed (rules : List Rule) : List (Rule × Nat) :=
  rules.zipIdx.mergeSort (List.zipIdxLE atMost)

private theorem map_sortIndexed (rules : List Rule) :
    (sortIndexed rules).map (·.1) = sort rules := List.mergeSort_zipIdx

private theorem mem_sortIndexed {rules : List Rule} {r : Rule} {i : Nat} :
    (r, i) ∈ sortIndexed rules ↔ rules[i]? = some r :=
  List.mem_mergeSort.trans List.mk_mem_zipIdx_iff_getElem?

private theorem not_precedes_of_zipIdxLE {a b : Rule × Nat} (h : List.zipIdxLE atMost a b = true) :
    ¬Precedes b.2 b.1 a.2 a.1 := by
  simp only [List.zipIdxLE, atMost, decide_eq_true_eq] at h
  rintro (hlt | ⟨heq, hlt⟩)
  · rw [if_neg (Int32.not_le.2 hlt)] at h
    cases h
  · rw [heq, if_pos (Int32.le_refl _), if_pos (Int32.le_refl _), decide_eq_true_eq] at h
    omega

/-- In the sorted list no rule is checked before one that stands to its left. -/
private theorem sortIndexed_pairwise (rules : List Rule) :
    (sortIndexed rules).Pairwise fun a b => ¬Precedes b.2 b.1 a.2 a.1 := by
  have hsorted := List.pairwise_mergeSort (List.zipIdxLE_trans atMost_trans)
    (List.zipIdxLE_total atMost_total) rules.zipIdx
  exact hsorted.imp not_precedes_of_zipIdxLE

/-- The first rule with a property that one meets in the sorted list is the first to be checked. -/
private theorem isFirst_of_split {P : Rule → Prop} {rules : List Rule} {i : Nat} {r : Rule}
    {before after : List (Rule × Nat)} (hsplit : sortIndexed rules = before ++ (r, i) :: after)
    (hr : P r) (hbefore : ∀ x ∈ before, ¬P x.1) : IsFirst P rules i r where
  getElem?_eq := by
    apply mem_sortIndexed.1
    rw [hsplit]
    simp
  property := hr
  first j b hj hprec := by
    have hmem := mem_sortIndexed.2 hj
    have hpairs := sortIndexed_pairwise rules
    rw [hsplit] at hmem hpairs
    have hafter : ∀ x ∈ after, ¬Precedes x.2 x.1 i r :=
      (List.pairwise_cons.1 (List.pairwise_append.1 hpairs).2.1).1
    rcases List.mem_append.1 hmem with hmem | hmem
    · exact hbefore (b, j) hmem
    · rcases List.mem_cons.1 hmem with heq | hmem
      · cases heq
        exact absurd hprec (not_precedes_self i r)
      · exact absurd hprec (hafter (b, j) hmem)

/-- Either no rule has the property, or the first one that has it stands in the sorted list before
all others that do. -/
private theorem sort_cases (P : Rule → Prop) (rules : List Rule) :
    (∃ i r, IsFirst P rules i r ∧
      ∃ before after, sort rules = before ++ r :: after ∧ ∀ b ∈ before, ¬P b) ∨
    ∀ r ∈ rules, ¬P r := by
  classical
  cases hfind : (sortIndexed rules).find? (fun x => decide (P x.1)) with
  | none =>
    right
    intro r hr hP
    obtain ⟨i, hi⟩ := List.mem_iff_getElem?.1 hr
    exact List.find?_eq_none.1 hfind (r, i) (mem_sortIndexed.2 hi) (decide_eq_true hP)
  | some x =>
    left
    obtain ⟨r, i⟩ := x
    obtain ⟨hP, before, after, hsplit, hbefore⟩ := List.find?_eq_some_iff_append.1 hfind
    have hnot : ∀ x ∈ before, ¬P x.1 := by
      intro x hx
      simpa using hbefore x hx
    refine ⟨i, r, isFirst_of_split hsplit (of_decide_eq_true hP) hnot, before.map (·.1),
      after.map (·.1), ?_, ?_⟩
    · rw [← map_sortIndexed, hsplit]
      simp
    · intro b hb
      obtain ⟨x, hx, rfl⟩ := List.mem_map.1 hb
      exact hnot x hx

/-- If there is a rule with a property, one of them is the first. -/
theorem exists_isFirst {P : Rule → Prop} {rules : List Rule} {r : Rule} (hr : r ∈ rules)
    (hP : P r) : ∃ i a, IsFirst P rules i a := by
  rcases sort_cases P rules with ⟨i, a, ha, -⟩ | hnone
  · exact ⟨i, a, ha⟩
  · exact absurd hP (hnone r hr)

/-- **Sorting is stable.** In the sorted list no rule with the property stands before the first
one. -/
theorem sort_of_isFirst {P : Rule → Prop} {rules : List Rule} {i : Nat} {r : Rule}
    (h : IsFirst P rules i r) :
    ∃ before after, sort rules = before ++ r :: after ∧ ∀ b ∈ before, ¬P b := by
  rcases sort_cases P rules with ⟨j, a, ha, hsplit⟩ | hnone
  · obtain ⟨rfl, rfl⟩ := h.unique ha
    exact hsplit
  · exact absurd h.property (hnone r (List.mem_iff_getElem?.2 ⟨i, h.getElem?_eq⟩))

/-- The second list has the rules of the first by ascending priority, and those of one priority in
the order of the first list. -/
structure StablySorted (rules sorted : List Rule) : Prop where
  perm : sorted.Perm rules
  ascending : sorted.Pairwise fun a b => a.priority ≤ b.priority
  stable : ∀ p, sorted.filter (·.priority == p) = rules.filter (·.priority == p)

theorem sort_stablySorted (rules : List Rule) : StablySorted rules (sort rules) where
  perm := List.mergeSort_perm rules atMost
  ascending :=
    (List.pairwise_mergeSort atMost_trans atMost_total rules).imp of_decide_eq_true
  stable p := by
    -- rules of one priority are sorted already, so they stay a sublist
    have hsame : (rules.filter (·.priority == p)).Pairwise fun a b => atMost a b := by
      refine List.pairwise_of_forall_mem_list fun a ha b hb => ?_
      rw [atMost, beq_iff_eq.1 (List.mem_filter.1 ha).2, beq_iff_eq.1 (List.mem_filter.1 hb).2]
      exact decide_eq_true (Int32.le_refl p)
    have hsub := (List.sublist_mergeSort atMost_trans atMost_total hsame
      List.filter_sublist).filter (·.priority == p)
    rw [List.filter_filter, ← sort] at hsub
    simp only [Bool.and_self] at hsub
    exact (hsub.eq_of_length ((List.mergeSort_perm rules atMost).filter _).length_eq.symm).symm

theorem mem_sort {rules : List Rule} {r : Rule} : r ∈ sort rules ↔ r ∈ rules := List.mem_mergeSort

end WordLogic.Rule
