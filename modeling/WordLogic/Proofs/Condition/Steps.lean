import Mathlib
import WordLogic.Proofs.Condition.Memory

/-!
# No step is taken twice

However many references lead to a group, an evaluation begins its clauses once, tests each of its
literals at most once and keeps what it comes to once. So it takes no more tests than the condition
has literals (`settled_once`), where going into a group anew at each reference could double their
number with every group.

* `Trail.Next`, `Trail.Onward`: a trail goes on from another by steps that were not taken before, and
  what is kept is never replaced.
* `Trail.Tidy`: nothing was done at a group that is not known, and a group that is known was begun
  and kept. This is what an evaluation finds and leaves, for the groups up to its own; the groups
  after it may be in progress, and it does not touch them.
* `settle_onward`: so an evaluation from a tidy trail goes onward.
* `settled_known`: no step is missing either; a group that is known was begun and kept exactly once.
-/

namespace WordLogic

/-- The group at which the step is taken. -/
def Step.group : Step → Nat
  | .enter k => k
  | .test k _ => k
  | .keep k => k

/-- The step is the test of a literal. -/
def Step.isTest : Step → Bool
  | .test _ _ => true
  | _ => false

namespace Trail

variable {a b c t : Trail} {bound : Nat}

@[simp] theorem known_note (t : Trail) (step : Step) : (t.note step).known = t.known := rfl

@[simp] theorem steps_note (t : Trail) (step : Step) : (t.note step).steps = step :: t.steps := rfl

@[simp] theorem steps_keep (t : Trail) (k : Nat) (o : Outcome) :
    (t.keep k o).steps = .keep k :: t.steps := rfl

theorem known_keep_ne (t : Trail) {k i : Nat} (o : Outcome) (h : k ≠ i) :
    (t.keep k o).known[i]? = t.known[i]? :=
  Array.getElem?_setIfInBounds_ne h

/-- What is kept in a place is found there. -/
theorem known_keep {k : Nat} (h : t.known[k]? = some none) (o : Outcome) :
    (t.keep k o).known[k]? = some (some o) := by
  obtain ⟨hk, -⟩ := Array.getElem?_eq_some_iff.1 h
  exact Array.getElem?_setIfInBounds_self_of_lt hk

/-! ## Going onward -/

/-- The second trail comes from the first by one step, at a group before `bound`. Clauses are begun
and a literal is tested that were not before, and what a group comes to is kept where nothing was. -/
inductive Next (bound : Nat) (a : Trail) : Trail → Prop
  | enter {k : Nat} (hk : k < bound) (hnew : .enter k ∉ a.steps) :
      Next bound a (a.note (.enter k))
  | test {k position : Nat} (hk : k < bound) (hnew : .test k position ∉ a.steps) :
      Next bound a (a.note (.test k position))
  | keep {k : Nat} (o : Outcome) (hk : k < bound) (hempty : a.known[k]? = some none) :
      Next bound a (a.keep k o)

/-- The second trail comes from the first by such steps. -/
def Onward (bound : Nat) : Trail → Trail → Prop := Relation.ReflTransGen (Next bound)

namespace Next

theorem mono {bound' : Nat} (h : Next bound a b) (hle : bound ≤ bound') : Next bound' a b := by
  cases h with
  | enter hk hnew => exact .enter (by omega) hnew
  | test hk hnew => exact .test (by omega) hnew
  | keep o hk hempty => exact .keep o (by omega) hempty

/-- The memory of the groups from the bound on is not touched. -/
theorem known_eq (h : Next bound a b) {i : Nat} (hi : bound ≤ i) : b.known[i]? = a.known[i]? := by
  cases h with
  | enter hk hnew => simp
  | test hk hnew => simp
  | keep o hk hempty => exact known_keep_ne a o (by omega)

/-- What is kept is not replaced. -/
theorem known_mono (h : Next bound a b) {i : Nat} {o : Outcome}
    (hi : a.known[i]? = some (some o)) : b.known[i]? = some (some o) := by
  cases h with
  | enter hk hnew => simpa using hi
  | test hk hnew => simpa using hi
  | @keep k o' hk hempty =>
    have hne : k ≠ i := by
      rintro rfl
      simp [hempty] at hi
    rw [known_keep_ne a o' hne, hi]

/-- No step is taken at the groups from the bound on. -/
theorem exists_step (h : Next bound a b) :
    ∃ step : Step, step.group < bound ∧ b.steps = step :: a.steps := by
  cases h with
  | @enter k hk hnew => exact ⟨.enter k, hk, rfl⟩
  | @test k position hk hnew => exact ⟨.test k position, hk, rfl⟩
  | @keep k o hk hempty => exact ⟨.keep k, hk, rfl⟩

end Next

namespace Onward

theorem trans (hab : Onward bound a b) (hbc : Onward bound b c) : Onward bound a c :=
  Relation.ReflTransGen.trans hab hbc

theorem mono {bound' : Nat} (h : Onward bound a b) (hle : bound ≤ bound') : Onward bound' a b := by
  induction h with
  | refl => exact .refl
  | tail _ hn ih => exact ih.tail (hn.mono hle)

theorem known_eq (h : Onward bound a b) {i : Nat} (hi : bound ≤ i) :
    b.known[i]? = a.known[i]? := by
  induction h with
  | refl => rfl
  | tail _ hn ih => rw [hn.known_eq hi, ih]

theorem known_mono (h : Onward bound a b) {i : Nat} {o : Outcome}
    (hi : a.known[i]? = some (some o)) : b.known[i]? = some (some o) := by
  induction h with
  | refl => exact hi
  | tail _ hn ih => exact hn.known_mono ih

/-- Steps that were taken stay in the trail. -/
theorem steps_subset (h : Onward bound a b) : a.steps ⊆ b.steps := by
  induction h with
  | refl => exact List.Subset.refl _
  | tail _ hn ih =>
    obtain ⟨step, -, he⟩ := hn.exists_step
    rw [he]
    exact List.subset_cons_of_subset step ih

theorem mem_steps (h : Onward bound a b) {step : Step} (hi : bound ≤ step.group)
    (hs : step ∈ b.steps) : step ∈ a.steps := by
  induction h with
  | refl => exact hs
  | tail _ hn ih =>
    obtain ⟨last, hlast, he⟩ := hn.exists_step
    rw [he] at hs
    rcases List.mem_cons.1 hs with rfl | hs
    · omega
    · exact ih hs

end Onward

/-! ## Steps are taken once -/

/-- No step was taken twice, and a group whose outcome was kept is known. -/
structure Once (t : Trail) : Prop where
  nodup : t.steps.Nodup
  known_of_keep : ∀ k, .keep k ∈ t.steps → t.known[k]? ≠ some none

theorem start_once (size : Nat) : (start size).Once := ⟨List.nodup_nil, nofun⟩

theorem Once.next (ht : a.Once) (h : Next bound a b) : b.Once := by
  cases h with
  | enter hk hnew => exact ⟨List.nodup_cons.2 ⟨hnew, ht.nodup⟩, by simpa using ht.known_of_keep⟩
  | test hk hnew => exact ⟨List.nodup_cons.2 ⟨hnew, ht.nodup⟩, by simpa using ht.known_of_keep⟩
  | @keep k o hk hempty =>
    refine ⟨List.nodup_cons.2 ⟨fun hmem => ht.known_of_keep k hmem hempty, ht.nodup⟩, ?_⟩
    intro i hi
    by_cases hki : k = i
    · subst hki
      simp [known_keep hempty]
    · rw [known_keep_ne a o hki]
      exact ht.known_of_keep i (by simpa [Ne.symm hki] using hi)

/-- Going onward from a trail on which no step was taken twice, none is. -/
theorem Once.onward (ht : a.Once) (h : Onward bound a b) : b.Once := by
  induction h with
  | refl => exact ht
  | tail _ hn ih => exact ih.next hn

/-! ## Tidy trails -/

/-- Of the groups before `bound`, those that are not known were not touched, and those that are known
were begun and kept. -/
structure Tidy (bound : Nat) (t : Trail) : Prop where
  untouched : ∀ i < bound, t.known[i]? = some none → ∀ step ∈ t.steps, step.group ≠ i
  logged : ∀ i < bound, ∀ o, t.known[i]? = some (some o) →
    .enter i ∈ t.steps ∧ .keep i ∈ t.steps

theorem start_tidy (bound size : Nat) : (start size).Tidy bound where
  untouched := by simp [start]
  logged i _ o h := by
    rw [start, Array.getElem?_replicate] at h
    split at h <;> cases h

namespace Tidy

theorem mono {bound' : Nat} (ht : t.Tidy bound) (hle : bound' ≤ bound) : t.Tidy bound' where
  untouched i hi := ht.untouched i (by omega)
  logged i hi := ht.logged i (by omega)

/-- A step at a later group does not matter. -/
theorem later (ha : a.Tidy bound) {step : Step} (hsteps : b.steps = step :: a.steps)
    (hstep : bound ≤ step.group) (hknown : ∀ i < bound, b.known[i]? = a.known[i]?) :
    b.Tidy bound where
  untouched i hi hempty last hlast := by
    rw [hknown i hi] at hempty
    rw [hsteps] at hlast
    rcases List.mem_cons.1 hlast with rfl | hlast
    · omega
    · exact ha.untouched i hi hempty last hlast
  logged i hi o hk := by
    rw [hknown i hi] at hk
    rw [hsteps]
    exact (ha.logged i hi o hk).imp (List.mem_cons_of_mem step) (List.mem_cons_of_mem step)

/-- The next group is known, and was begun and kept. -/
theorem succ (ht : t.Tidy bound) (hknown : t.known[bound]? ≠ some none)
    (hlogged : .enter bound ∈ t.steps ∧ .keep bound ∈ t.steps) : t.Tidy (bound + 1) where
  untouched i hi hempty := by
    rcases Nat.lt_succ_iff_lt_or_eq.1 hi with hi | rfl
    · exact ht.untouched i hi hempty
    · exact absurd hempty hknown
  logged i hi o hk := by
    rcases Nat.lt_succ_iff_lt_or_eq.1 hi with hi | rfl
    · exact ht.logged i hi o hk
    · exact hlogged

/-- What goes on at earlier groups, and leaves these tidy, leaves all tidy. -/
theorem onward {n : Nat} (ha : a.Tidy bound) (h : Onward n a b) (hb : b.Tidy n) :
    b.Tidy bound where
  untouched i hi hempty step hs hgroup := by
    by_cases hin : i < n
    · exact hb.untouched i hin hempty step hs hgroup
    · have hni : n ≤ i := Nat.not_lt.1 hin
      rw [h.known_eq hni] at hempty
      exact ha.untouched i hi hempty step (h.mem_steps (by omega) hs) hgroup
  logged i hi o hk := by
    by_cases hin : i < n
    · exact hb.logged i hin o hk
    · rw [h.known_eq (Nat.not_lt.1 hin)] at hk
      obtain ⟨henter, hkeep⟩ := ha.logged i hi o hk
      exact ⟨h.steps_subset henter, h.steps_subset hkeep⟩

end Tidy

/-- The clauses of a group have been begun, and its literals from a position on were not tested. -/
structure Within (group position : Nat) (t : Trail) : Prop where
  tidy : t.Tidy group
  unknown : t.known[group]? = some none
  begun : .enter group ∈ t.steps
  untested : ∀ p, .test group p ∈ t.steps → p < position

namespace Within

variable {group position : Nat}

theorem mono {position' : Nat} (h : t.Within group position) (hle : position ≤ position') :
    t.Within group position' :=
  { h with untested := fun p hp => by have := h.untested p hp; omega }

/-- Beginning the clauses of a group at which nothing was done. -/
theorem enter (ht : t.Tidy (group + 1)) (hempty : t.known[group]? = some none) :
    Next (group + 1) t (t.note (.enter group)) ∧ (t.note (.enter group)).Within group 0 := by
  have hnone := ht.untouched group (by omega) hempty
  have htidy : (t.note (.enter group)).Tidy group :=
    (ht.mono (Nat.le_succ group)).later rfl (Nat.le_refl group) fun _ _ => rfl
  refine ⟨.enter (by omega) fun hs => hnone _ hs rfl, htidy, hempty, List.mem_cons_self, ?_⟩
  intro p hp
  exact absurd rfl (hnone (.test group p) (by simpa using hp))

/-- Testing the next literal. -/
theorem test (h : t.Within group position) :
    Next (group + 1) t (t.note (.test group position)) ∧
      (t.note (.test group position)).Within group (position + 1) := by
  have htidy : (t.note (.test group position)).Tidy group :=
    h.tidy.later rfl (Nat.le_refl group) fun _ _ => rfl
  refine ⟨.test (by omega) fun hs => ?_, htidy, h.unknown, List.mem_cons_of_mem _ h.begun, ?_⟩
  · have := h.untested position hs
    omega
  · intro p hp
    rcases List.mem_cons.1 hp with hp | hp
    · cases hp
      omega
    · have := h.untested p hp
      omega

/-- What goes on at earlier groups does not touch this one. -/
theorem onward {n : Nat} (h : a.Within group position) (hab : Onward n a b) (hn : n ≤ group)
    (hb : b.Tidy n) : b.Within group position where
  tidy := h.tidy.onward hab hb
  unknown := by rw [hab.known_eq hn, h.unknown]
  begun := hab.steps_subset h.begun
  untested p hp := h.untested p (hab.mem_steps hn hp)

/-- Keeping what the group comes to. -/
theorem keep (h : t.Within group position) (o : Outcome) :
    Next (group + 1) t (t.keep group o) ∧ (t.keep group o).Tidy (group + 1) := by
  have hbefore : (t.keep group o).Tidy group :=
    h.tidy.later rfl (Nat.le_refl group) fun i hi => known_keep_ne t o (by omega)
  have hknown : (t.keep group o).known[group]? ≠ some none := by
    rw [known_keep h.unknown]
    simp
  refine ⟨.keep o (by omega) h.unknown, hbefore.succ hknown ⟨?_, List.mem_cons_self⟩⟩
  exact List.mem_cons_of_mem _ h.begun

end Within

end Trail

namespace Condition

variable {groups : List Group} {s : Sentence} {group : Nat}
  {settle : (k : Nat) → k < group → Trail → Trailed Outcome}

/-! ## Evaluations -/

/-- Earlier groups are settled by going onward from a tidy trail to a tidy one. -/
def GoesOnward (group : Nat) (settle : (k : Nat) → k < group → Trail → Trailed Outcome) : Prop :=
  ∀ k hk trail o after, trail.Tidy (k + 1) → settle k hk trail = .ok (o, after) →
    Trail.Onward (k + 1) trail after ∧ after.Tidy (k + 1)

theorem testLiteral_onward (hv : GoesOnward group settle) {position : Nat} {l : Literal}
    {trail after : Trail} {o : Outcome} (ht : trail.Within group position)
    (h : testLiteral s group settle position l trail = .ok (o, after)) :
    Trail.Onward (group + 1) trail after ∧ after.Within group (position + 1) := by
  obtain ⟨hnext, hwithin⟩ := ht.test
  have htested : Trail.Onward (group + 1) trail (trail.note (.test group position)) :=
    .single hnext
  unfold testLiteral at h
  split at h
  · cases h
    exact ⟨htested, hwithin⟩
  · split at h
    · rename_i k _ hk
      simp only at h
      split at h
      · cases h
      · rename_i o' after' hsettle
        cases h
        obtain ⟨honward, htidy⟩ := hv k hk _ _ _ (hwithin.tidy.mono hk) hsettle
        exact ⟨htested.trans (honward.mono (by omega)), hwithin.onward honward hk htidy⟩
    · cases h

theorem testAny_onward (hv : GoesOnward group settle) {position : Nat} {ls : List Literal}
    {trail after : Trail} {found : Bool} (ht : trail.Within group position)
    (h : testAny s group settle position ls trail = .ok (found, after)) :
    Trail.Onward (group + 1) trail after ∧ after.Within group (position + ls.length) := by
  induction ls generalizing position trail with
  | nil =>
    cases h
    exact ⟨.refl, ht⟩
  | cons l ls ih =>
    rw [testAny] at h
    split at h
    · cases h
    · rename_i after' hl
      cases h
      obtain ⟨honward, hwithin⟩ := testLiteral_onward hv ht hl
      exact ⟨honward, hwithin.mono (by simp)⟩
    · rename_i unmet after' hl
      obtain ⟨honward, hwithin⟩ := testLiteral_onward hv ht hl
      obtain ⟨hrest, hlast⟩ := ih hwithin h
      exact ⟨honward.trans hrest, hlast.mono (by simp; omega)⟩

theorem testClauses_onward (hv : GoesOnward group settle) {position : Nat} {cs : List Clause}
    {trail after : Trail} {o : Outcome} (ht : trail.Within group position)
    (h : testClauses s group settle position cs trail = .ok (o, after)) :
    Trail.Onward (group + 1) trail after ∧ ∃ last, after.Within group last := by
  induction cs generalizing position trail with
  | nil =>
    cases h
    exact ⟨.refl, position, ht⟩
  | cons c cs ih =>
    cases c with
    | single l =>
      rw [testClauses] at h
      split at h
      · cases h
      · rename_i after' hl
        obtain ⟨honward, hwithin⟩ := testLiteral_onward hv ht hl
        obtain ⟨hrest, hlast⟩ := ih hwithin h
        exact ⟨honward.trans hrest, hlast⟩
      · rename_i unmet after' hl
        cases h
        obtain ⟨honward, hwithin⟩ := testLiteral_onward hv ht hl
        exact ⟨honward, _, hwithin⟩
    | anyOf ls =>
      rw [testClauses] at h
      split at h
      · cases h
      · rename_i after' hl
        obtain ⟨honward, hwithin⟩ := testAny_onward hv ht hl
        obtain ⟨hrest, hlast⟩ := ih hwithin h
        exact ⟨honward.trans hrest, hlast⟩
      · rename_i after' hl
        cases h
        obtain ⟨honward, hwithin⟩ := testAny_onward hv ht hl
        exact ⟨honward, _, hwithin⟩

/-- **An evaluation goes onward** from a tidy trail, leaves a tidy one and knows its group. The
induction is on the index: while a group is in progress, references lead to earlier groups only, so
nothing leads back into it. -/
theorem settle_onward {index : Nat} {trail after : Trail} {o : Outcome}
    (ht : trail.Tidy (index + 1)) (h : Condition.settle groups s index trail = .ok (o, after)) :
    Trail.Onward (index + 1) trail after ∧ after.Tidy (index + 1) ∧
      after.known[index]? = some (some o) := by
  induction index using Nat.strongRecOn generalizing trail after o with
  | ind index ih =>
    rw [Condition.settle] at h
    split at h
    · rename_i o' hknown
      cases h
      exact ⟨.refl, ht, hknown⟩
    · rename_i g hempty hg
      have hv : GoesOnward index (fun k _ => Condition.settle groups s k) := by
        intro k hk before o' last htidy hsettle
        obtain ⟨honward, hlast, -⟩ := ih k hk htidy hsettle
        exact ⟨honward, hlast⟩
      obtain ⟨hbegun, hwithin⟩ := Trail.Within.enter ht hempty
      simp only at h
      split at h
      · cases h
      · rename_i o' tested hclauses
        cases h
        obtain ⟨htested, last, hlast⟩ := testClauses_onward hv hwithin hclauses
        obtain ⟨hkept, htidy⟩ := hlast.keep o
        have honward := ((Relation.ReflTransGen.single hbegun).trans htested).tail hkept
        exact ⟨honward, htidy, Trail.known_keep hlast.unknown o⟩
    · cases h

/-- **No step is missing.** An evaluation knows its group at the end, and every group that it knows
was begun and kept exactly once. -/
theorem settled_known {c : Condition} {index : Nat} {s : Sentence} {o : Outcome} {trail : Trail}
    (h : c.settled index s = .ok (o, trail)) :
    trail.known[index]? = some (some o) ∧
      ∀ (k : Nat) (kept : Outcome), trail.known[k]? = some (some kept) →
        trail.steps.count (.enter k) = 1 ∧ trail.steps.count (.keep k) = 1 := by
  obtain ⟨honward, htidy, hindex⟩ := settle_onward (Trail.start_tidy _ _) h
  refine ⟨hindex, fun k kept hk => ?_⟩
  have hnodup := ((Trail.start_once _).onward honward).nodup
  have hall : trail.Tidy (k + 1) := (Trail.start_tidy _ _).onward honward htidy
  obtain ⟨henter, hkeep⟩ := hall.logged k (by omega) kept hk
  exact ⟨List.count_eq_one_of_mem hnodup henter, List.count_eq_one_of_mem hnodup hkeep⟩

/-! ## The number of tests -/

/-- The number of literals of all groups. -/
def literalCount (c : Condition) : Nat := (c.groups.map (·.literals.length)).sum

/-- The tests that there are in groups of which the first has the index `first`. -/
def testsFrom (first : Nat) : List Group → List Step
  | [] => []
  | g :: gs => (List.range g.literals.length).map (.test first) ++ testsFrom (first + 1) gs

theorem length_testsFrom (first : Nat) (groups : List Group) :
    (testsFrom first groups).length = (groups.map (·.literals.length)).sum := by
  induction groups generalizing first with
  | nil => rfl
  | cons g gs ih => simp [testsFrom, ih]

theorem mem_testsFrom (first : Nat) {k position : Nat} {g : Group} (hg : groups[k]? = some g)
    (hp : position < g.literals.length) : .test (first + k) position ∈ testsFrom first groups := by
  induction groups generalizing first k with
  | nil => simp at hg
  | cons g' gs ih =>
    rw [testsFrom, List.mem_append]
    cases k with
    | zero =>
      cases hg
      exact .inl (List.mem_map.2 ⟨position, List.mem_range.2 hp, rfl⟩)
    | succ k =>
      have := ih (first + 1) hg
      exact .inr (by rwa [show first + (k + 1) = first + 1 + k by omega])

/-- Steps that are in range and not repeated have no more tests than there are literals. -/
theorem countP_isTest_le {c : Condition} {steps : List Step} (hn : steps.Nodup)
    (hr : ∀ step ∈ steps, step.InRange c.groups) : steps.countP (·.isTest) ≤ c.literalCount := by
  have hsub : steps.filter (·.isTest) ⊆ testsFrom 0 c.groups := by
    intro step hstep
    obtain ⟨hmem, htest⟩ := List.mem_filter.1 hstep
    cases step with
    | enter k => cases htest
    | keep k => cases htest
    | test k position =>
      obtain ⟨g, hg, hp⟩ := hr _ hmem
      simpa using mem_testsFrom 0 hg hp
  rw [List.countP_eq_length_filter, literalCount, ← length_testsFrom 0]
  exact (List.subperm_of_subset (hn.filter _) hsub).length_le

/-- **No step is taken twice.** In a condition whose references go backwards, evaluating a group
begins the clauses of each group at most once, tests each literal at most once, and keeps the outcome
of each group at most once. It does so where nothing was kept, and what is kept at some point on the
way is there at the end. So it makes no more tests than there are literals. The group itself and
every other one that is known at the end were begun and kept exactly once. -/
theorem settled_once {c : Condition} (hb : Backward c.groups) {index : Nat}
    (hi : index < c.groups.length) (s : Sentence) :
    ∃ o trail, c.settled index s = .ok (o, trail) ∧
      Trail.Onward (index + 1) (Trail.start c.groups.length) trail ∧
      (∀ mid, Trail.Onward (index + 1) mid trail → ∀ (k : Nat) (kept : Outcome),
        mid.known[k]? = some (some kept) → trail.known[k]? = some (some kept)) ∧
      (∀ step, trail.steps.count step ≤ 1) ∧
      trail.steps.countP (·.isTest) ≤ c.literalCount ∧
      trail.known[index]? = some (some o) ∧
      ∀ (k : Nat) (kept : Outcome), trail.known[k]? = some (some kept) →
        trail.steps.count (.enter k) = 1 ∧ trail.steps.count (.keep k) = 1 := by
  obtain ⟨o, trail, hr, -, hsound⟩ := settle_eq_ok hb hi (Trail.start_sound c.groups s)
  obtain ⟨honward, -⟩ := settle_onward (Trail.start_tidy _ _) hr
  have honce := (Trail.start_once _).onward honward
  refine ⟨o, trail, hr, honward, ?_, List.nodup_iff_count_le_one.1 honce.nodup,
    countP_isTest_le honce.nodup hsound.inRange, settled_known hr⟩
  intro mid hmid k kept hk
  exact hmid.known_mono hk

/-- Each group refers to the one before it twice, or three times; there are ten literals. -/
theorem settled_once_shared :
    ∃ c trail, ofText "(&a) (#0 #0) (#1 !#1 | #1) #2" = .ok c ∧ Backward c.groups ∧
      3 < c.groups.length ∧ c.settled 3 (Sentence.ofText "a") = .ok (.holds, trail) ∧
      trail.steps.count (.enter 0) ≤ 1 ∧ trail.steps.count (.enter 3) = 1 ∧
      trail.steps.countP (·.isTest) ≤ 10 := by
  let c : Condition :=
    ⟨[⟨[.word .and "a" false]⟩,
      ⟨[.group .and 0 false, .group .and 0 false]⟩,
      ⟨[.group .and 1 false, .group .or 1 true, .group .or 1 false]⟩,
      ⟨[.group .and 0 false, .group .and 1 false, .group .and 2 false, .group .and 2 false]⟩], 3⟩
  have hc : ofText "(&a) (#0 #0) (#1 !#1 | #1) #2" = .ok c := by cbv
  have houtcome : c.outcome 3 (Sentence.ofText "a") = .ok .holds := by cbv
  have hb : Backward c.groups := (ofText_wellFormed hc).backward
  have hi : 3 < c.groups.length := by decide
  obtain ⟨o, trail, hr, -, -, hcount, htests, hknown, hlogged⟩ :=
    settled_once hb hi (Sentence.ofText "a")
  have ho : c.outcome 3 (Sentence.ofText "a") = .ok o := by
    rw [outcome, hr]
    rfl
  rw [houtcome] at ho
  cases ho
  exact ⟨c, trail, hc, hb, hi, hr, hcount (.enter 0), (hlogged 3 _ hknown).1, htests⟩

end Condition

end WordLogic
