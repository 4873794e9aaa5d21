import WordLogic.Condition.Evaluation

/-!
# Evaluation without a memory

`Condition.settle` keeps what a group comes to and answers further references from what it kept.
`Condition.direct` is the recursion without that: it goes into a group at every reference to it.

* `Trail.Sound`: what is kept of a group is what the recursion gives, and every step that was taken
  is at a group and a literal that are there.
* `settle_direct`: from a sound trail, `settle` gives what the recursion gives, a fault included,
  and leaves a sound trail.
* `outcome_eq_direct`, `settled_sound`: the same for an evaluation from the start.
-/

namespace WordLogic

namespace Condition

/-! ## The recursion -/

section Clauses

variable (s : Sentence) (group : Nat) (value : (k : Nat) → k < group → Except Fault Outcome)

/-- What the literal at a position of `group` comes to. -/
def directLiteral (position : Nat) (l : Literal) : Except Fault Outcome :=
  match l.atom with
  | .word word =>
    .ok (if s.contains word != l.negated then .holds else .fails (.literal group position l))
  | .group k =>
    if h : k < group then
      match value k h with
      | .error e => .error e
      | .ok o => .ok (ofGroup group position l o)
    else .error (.forwardReference group k)

/-- Whether one of the literals from a position on holds. -/
def directAny : (position : Nat) → List Literal → Except Fault Bool
  | _, [] => .ok false
  | position, l :: ls =>
    match directLiteral s group value position l with
    | .error e => .error e
    | .ok .holds => .ok true
    | .ok (.fails _) => directAny (position + 1) ls

/-- What the clauses from a position on come to. -/
def directClauses : (position : Nat) → List Clause → Except Fault Outcome
  | _, [] => .ok .holds
  | position, .single l :: cs =>
    match directLiteral s group value position l with
    | .error e => .error e
    | .ok .holds => directClauses (position + 1) cs
    | .ok (.fails unmet) => .ok (.fails unmet)
  | position, .anyOf ls :: cs =>
    match directAny s group value position ls with
    | .error e => .error e
    | .ok true => directClauses (position + ls.length) cs
    | .ok false => .ok (.fails (.run group position ls))

end Clauses

/-- What a group comes to, found anew at each reference to it. -/
def direct (groups : List Group) (s : Sentence) (index : Nat) : Except Fault Outcome :=
  match groups[index]? with
  | none => .error (.noSuchGroup index)
  | some g => directClauses s index (fun k _ => direct groups s k) 0 g.clauses
termination_by index

end Condition

open Condition

/-! ## Sound trails -/

/-- The step is at a group, and at a literal, that are there. -/
def Step.InRange (groups : List Group) : Step → Prop
  | .enter k => k < groups.length
  | .test k position => ∃ g, groups[k]? = some g ∧ position < g.literals.length
  | .keep k => k < groups.length

/-- There is a place for every group, what is kept is what the recursion gives, and the steps are in
range. -/
structure Trail.Sound (groups : List Group) (s : Sentence) (trail : Trail) : Prop where
  size_known : trail.known.size = groups.length
  known_eq : ∀ k o, trail.known[k]? = some (some o) → direct groups s k = .ok o
  inRange : ∀ step ∈ trail.steps, step.InRange groups

namespace Trail

variable {groups : List Group} {s : Sentence} {trail : Trail}

theorem start_sound (groups : List Group) (s : Sentence) :
    (Trail.start groups.length).Sound groups s where
  size_known := by simp [start]
  known_eq k o h := by
    simp only [start, Array.getElem?_replicate] at h
    split at h <;> cases h
  inRange := by simp [start]

theorem Sound.note (h : trail.Sound groups s) {step : Step} (hs : step.InRange groups) :
    (trail.note step).Sound groups s where
  size_known := h.size_known
  known_eq := h.known_eq
  inRange := List.forall_mem_cons.2 ⟨hs, h.inRange⟩

theorem Sound.keep (h : trail.Sound groups s) {k : Nat} {o : Outcome}
    (hk : direct groups s k = .ok o) (hlt : k < groups.length) :
    (trail.keep k o).Sound groups s where
  size_known := by simp [Trail.keep, h.size_known]
  known_eq i o' hi := by
    simp only [Trail.keep, Array.getElem?_setIfInBounds] at hi
    split at hi
    · rename_i he
      subst he
      split at hi
      · cases hi
        exact hk
      · cases hi
    · exact h.known_eq i o' hi
  inRange := List.forall_mem_cons.2 ⟨hlt, h.inRange⟩

end Trail

/-- An answer found with a trail is the direct one, and its trail is sound. -/
def Trailed.Follows {α : Type} (groups : List Group) (s : Sentence) :
    Trailed α → Except Fault α → Prop
  | .error e, d => d = .error e
  | .ok (a, trail), d => d = .ok a ∧ trail.Sound groups s

theorem Trailed.Follows.cases {α : Type} {groups : List Group} {s : Sentence} {r : Trailed α}
    {d : Except Fault α} (h : r.Follows groups s d) :
    (∃ e, r = .error e ∧ d = .error e) ∨
    ∃ a trail, r = .ok (a, trail) ∧ d = .ok a ∧ trail.Sound groups s := by
  cases r with
  | error e => exact .inl ⟨e, rfl, h⟩
  | ok p => exact .inr ⟨p.1, p.2, rfl, h⟩

namespace Condition

variable {groups : List Group} {s : Sentence} {group : Nat} {g : Group}
  {settle : (k : Nat) → k < group → Trail → Trailed Outcome}
  {value : (k : Nat) → k < group → Except Fault Outcome}

/-- The groups before this one are settled as the recursion has it. -/
def Settles (groups : List Group) (s : Sentence) (group : Nat)
    (settle : (k : Nat) → k < group → Trail → Trailed Outcome)
    (value : (k : Nat) → k < group → Except Fault Outcome) : Prop :=
  ∀ k h trail, trail.Sound groups s → (settle k h trail).Follows groups s (value k h)

theorem testLiteral_direct (hv : Settles groups s group settle value)
    (hg : groups[group]? = some g) {position : Nat} (hp : position < g.literals.length)
    (l : Literal) {trail : Trail} (ht : trail.Sound groups s) :
    (testLiteral s group settle position l trail).Follows groups s
      (directLiteral s group value position l) := by
  have hstep : (Step.test group position).InRange groups := ⟨g, hg, hp⟩
  have hn := ht.note hstep
  unfold testLiteral directLiteral
  cases l.atom with
  | word w => exact ⟨rfl, hn⟩
  | group k =>
    by_cases hk : k < group
    · simp only [hk, ↓reduceDIte]
      obtain ⟨e, hr, hd⟩ | ⟨o, trail', hr, hd, ht'⟩ := (hv k hk _ hn).cases
      · rw [hr, hd]
        rfl
      · rw [hr, hd]
        exact ⟨rfl, ht'⟩
    · simp only [hk, ↓reduceDIte]
      rfl

theorem testAny_direct (hv : Settles groups s group settle value)
    (hg : groups[group]? = some g) {position : Nat} {ls : List Literal}
    (hp : position + ls.length ≤ g.literals.length) {trail : Trail} (ht : trail.Sound groups s) :
    (testAny s group settle position ls trail).Follows groups s
      (directAny s group value position ls) := by
  induction ls generalizing position trail with
  | nil => exact ⟨rfl, ht⟩
  | cons l ls ih =>
    rw [List.length_cons] at hp
    unfold testAny directAny
    have hl : position < g.literals.length := by omega
    obtain ⟨e, hr, hd⟩ | ⟨o, trail', hr, hd, ht'⟩ := (testLiteral_direct hv hg hl l ht).cases
    · rw [hr, hd]
      rfl
    · rw [hr, hd]
      cases o with
      | holds => exact ⟨rfl, ht'⟩
      | fails unmet => exact ih (by omega) ht'

/-- The clauses from a position on are those of the literals from that position on. -/
theorem testClauses_direct (hv : Settles groups s group settle value)
    (hg : groups[group]? = some g) {position : Nat} {cs : List Clause}
    (hp : position + (cs.flatMap Clause.literals).length ≤ g.literals.length) {trail : Trail}
    (ht : trail.Sound groups s) :
    (testClauses s group settle position cs trail).Follows groups s
      (directClauses s group value position cs) := by
  induction cs generalizing position trail with
  | nil => exact ⟨rfl, ht⟩
  | cons c cs ih =>
    rw [List.flatMap_cons, List.length_append] at hp
    unfold testClauses directClauses
    cases c with
    | single l =>
      rw [Clause.literals, List.length_singleton] at hp
      have hl : position < g.literals.length := by omega
      obtain ⟨e, hr, hd⟩ | ⟨o, trail', hr, hd, ht'⟩ := (testLiteral_direct hv hg hl l ht).cases
      · simp only [hr, hd]
        rfl
      · simp only [hr, hd]
        cases o with
        | holds => exact ih (by omega) ht'
        | fails unmet => exact ⟨rfl, ht'⟩
    | anyOf ls =>
      rw [Clause.literals] at hp
      have hls : position + ls.length ≤ g.literals.length := by omega
      obtain ⟨e, hr, hd⟩ | ⟨b, trail', hr, hd, ht'⟩ := (testAny_direct hv hg hls ht).cases
      · simp only [hr, hd]
        rfl
      · simp only [hr, hd]
        cases b with
        | true => exact ih (by omega) ht'
        | false => exact ⟨rfl, ht'⟩

theorem direct_of_getElem? {index : Nat} (hg : groups[index]? = some g) :
    direct groups s index = directClauses s index (fun k _ => direct groups s k) 0 g.clauses := by
  rw [direct, hg]

/-- **The memory changes no answer.** From a sound trail, settling a group gives what the recursion
gives. The induction is on the index: references go to earlier groups. -/
theorem settle_direct (groups : List Group) (s : Sentence) (index : Nat) {trail : Trail}
    (ht : trail.Sound groups s) :
    (Condition.settle groups s index trail).Follows groups s (direct groups s index) := by
  induction index using Nat.strongRecOn generalizing trail with
  | ind index ih =>
    rw [Condition.settle]
    split
    · rename_i o hk
      exact ⟨ht.known_eq _ _ hk, ht⟩
    · rename_i g hk hg
      have hlt : index < groups.length := (List.getElem?_eq_some_iff.1 hg).1
      have hv : Settles groups s index (fun k _ => Condition.settle groups s k)
          (fun k _ => direct groups s k) := fun k hk _ ht => ih k hk ht
      have hrow : g.clauses.flatMap Clause.literals = g.literals :=
        Clause.flatMap_literals_ofLiterals g.literals
      have hlen : 0 + (g.clauses.flatMap Clause.literals).length ≤ g.literals.length :=
        Nat.le_of_eq (by rw [hrow, Nat.zero_add])
      have hstep : (Step.enter index).InRange groups := hlt
      have hc := testClauses_direct hv hg hlen (ht.note hstep)
      rw [← direct_of_getElem? hg] at hc
      obtain ⟨e, hr, hd⟩ | ⟨o, trail', hr, hd, ht'⟩ := hc.cases
      · simp only [hr]
        exact hd
      · simp only [hr]
        exact ⟨hd, ht'.keep hd hlt⟩
    · rename_i h1 h2
      cases hg : groups[index]? with
      | none =>
        rw [direct, hg]
        rfl
      | some g =>
        -- there is a place for every group, so one of the other cases applies
        have hlt := (List.getElem?_eq_some_iff.1 hg).1
        have hsize : index < trail.known.size := by
          rw [ht.size_known]
          exact hlt
        have hk := Array.getElem?_eq_getElem hsize
        cases ho : trail.known[index] with
        | none => exact absurd hg (h2 g (by rw [hk, ho]))
        | some o => exact absurd (by rw [hk, ho]) (h1 o)

/-- An evaluation from the start gives what the recursion gives, and its trail is sound. -/
theorem settled_direct (c : Condition) (index : Nat) (s : Sentence) :
    (c.settled index s).Follows c.groups s (direct c.groups s index) :=
  settle_direct c.groups s index (Trail.start_sound c.groups s)

/-- What a group comes to is what the recursion gives. -/
theorem outcome_eq_direct (c : Condition) (index : Nat) (s : Sentence) :
    c.outcome index s = direct c.groups s index := by
  obtain ⟨e, hr, hd⟩ | ⟨o, trail', hr, hd, -⟩ := (c.settled_direct index s).cases
  · rw [outcome, hr, hd]
    rfl
  · rw [outcome, hr, hd]
    rfl

end Condition

end WordLogic
