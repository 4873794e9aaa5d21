import WordLogic.Proofs.Condition.Direct

/-!
# Truth of groups

In a condition whose references go backwards every group is true or false for a sentence: a group is
true when all its clauses are, a run of alternatives when one of them is (`isTrue_eq`). Evaluation
finds this out: it gives an answer for every group (`outcome_eq_ok`), and the demand that it names
for a group that fails is found at the place it says (`outcome_located`).
-/

namespace WordLogic

variable {groups : List Group} {s : Sentence}

/-! ## Truth -/

/-- The literal is true, when `value` tells which groups are. -/
def Literal.isTrue (s : Sentence) (value : Nat → Bool) (l : Literal) : Bool :=
  match l.atom with
  | .word w => s.contains w != l.negated
  | .group k => value k != l.negated

/-- The clause is true: its literal, or one of its alternatives, is. -/
def Clause.isTrue (s : Sentence) (value : Nat → Bool) : Clause → Bool
  | .single l => l.isTrue s value
  | .anyOf ls => ls.any (·.isTrue s value)

/-- The group is true: all its clauses are. -/
def Group.isTrue (s : Sentence) (value : Nat → Bool) (g : Group) : Bool :=
  g.clauses.all (·.isTrue s value)

namespace Condition

/-- The group with an index is true. -/
def isTrue (groups : List Group) (s : Sentence) (index : Nat) : Bool :=
  match direct groups s index with
  | .ok o => o.isHolds
  | .error _ => false

/-- Every reference goes to an earlier group. -/
def Backward (groups : List Group) : Prop :=
  ∀ (i : Nat) (g : Group), groups[i]? = some g → ∀ l ∈ g.literals, ∀ k, l.atom = .group k → k < i

theorem WellFormed.backward {c : Condition} (h : c.WellFormed) : Backward c.groups := by
  intro i g hg l hl k hk
  have := h.fits i g hg l hl
  rwa [hk] at this

section Clauses

variable {group : Nat} {value : (k : Nat) → k < group → Except Fault Outcome} {v : Nat → Bool}

theorem directLiteral_eq_ok (hv : ∀ k h, ∃ o, value k h = .ok o ∧ o.isHolds = v k) (position : Nat)
    {l : Literal} (hl : ∀ k, l.atom = .group k → k < group) :
    ∃ o, directLiteral s group value position l = .ok o ∧ o.isHolds = l.isTrue s v := by
  unfold directLiteral Literal.isTrue
  cases ha : l.atom with
  | word w =>
    refine ⟨_, rfl, ?_⟩
    simp only []
    cases s.contains w != l.negated <;> rfl
  | group k =>
    obtain ⟨o, ho, hval⟩ := hv k (hl k ha)
    refine ⟨ofGroup group position l o, by simp only [hl k ha, ↓reduceDIte, ho], ?_⟩
    simp only [← hval]
    cases o <;> cases hn : l.negated <;> simp [ofGroup, Outcome.isHolds, hn]

theorem directAny_eq_ok (hv : ∀ k h, ∃ o, value k h = .ok o ∧ o.isHolds = v k) (position : Nat)
    {ls : List Literal} (hl : ∀ l ∈ ls, ∀ k, l.atom = .group k → k < group) :
    directAny s group value position ls = .ok (ls.any (·.isTrue s v)) := by
  induction ls generalizing position with
  | nil => rfl
  | cons l ls ih =>
    obtain ⟨hl₁, hls⟩ := List.forall_mem_cons.1 hl
    obtain ⟨o, ho, hval⟩ := directLiteral_eq_ok (s := s) hv position hl₁
    rw [directAny, ho, List.any_cons, ← hval]
    cases o with
    | holds => rfl
    | fails unmet => exact ih (position + 1) hls

theorem directClauses_eq_ok (hv : ∀ k h, ∃ o, value k h = .ok o ∧ o.isHolds = v k) (position : Nat)
    {cs : List Clause}
    (hl : ∀ l ∈ cs.flatMap Clause.literals, ∀ k, l.atom = .group k → k < group) :
    ∃ o, directClauses s group value position cs = .ok o ∧
      o.isHolds = cs.all (·.isTrue s v) := by
  induction cs generalizing position with
  | nil => exact ⟨.holds, rfl, rfl⟩
  | cons c cs ih =>
    rw [List.flatMap_cons, List.forall_mem_append] at hl
    obtain ⟨hc, hcs⟩ := hl
    rw [List.all_cons]
    cases c with
    | single l =>
      have hl := hc l (List.mem_singleton_self l)
      obtain ⟨o, ho, hval⟩ := directLiteral_eq_ok (s := s) hv position hl
      rw [directClauses, ho, Clause.isTrue, ← hval]
      cases o with
      | holds => exact ih (position + 1) hcs
      | fails unmet => exact ⟨.fails unmet, rfl, rfl⟩
    | anyOf ls =>
      have hls : directAny s group value position ls = .ok (ls.any (·.isTrue s v)) :=
        directAny_eq_ok hv position hc
      rw [directClauses, hls, Clause.isTrue]
      cases ls.any (·.isTrue s v) with
      | true => exact ih (position + ls.length) hcs
      | false => exact ⟨_, rfl, rfl⟩

end Clauses

/-- The recursion gives an answer for every group, and it is the truth about the clauses. -/
theorem direct_eq_ok (hb : Backward groups) {index : Nat} {g : Group}
    (hg : groups[index]? = some g) :
    ∃ o, direct groups s index = .ok o ∧ o.isHolds = g.isTrue s (isTrue groups s) := by
  induction index using Nat.strongRecOn generalizing g with
  | ind index ih =>
    have hlt := (List.getElem?_eq_some_iff.1 hg).1
    have hearlier : ∀ k < index,
        ∃ o, direct groups s k = .ok o ∧ o.isHolds = isTrue groups s k := by
      intro k hk
      obtain ⟨o, ho, -⟩ := ih k hk (List.getElem?_eq_getElem (by omega))
      exact ⟨o, ho, by rw [isTrue, ho]⟩
    rw [direct_of_getElem? hg]
    apply directClauses_eq_ok hearlier 0
    rw [Group.clauses, Clause.flatMap_literals_ofLiterals]
    exact hb index g hg

/-- A group is true when its clauses are. -/
theorem isTrue_eq (hb : Backward groups) {index : Nat} {g : Group}
    (hg : groups[index]? = some g) :
    isTrue groups s index = g.isTrue s (isTrue groups s) := by
  obtain ⟨o, ho, hval⟩ := direct_eq_ok (s := s) hb hg
  rw [isTrue, ho]
  exact hval

/-- Evaluation gives an answer for every group. -/
theorem outcome_eq_ok {c : Condition} (hb : Backward c.groups) {index : Nat}
    (hi : index < c.groups.length) (s : Sentence) :
    ∃ o, c.outcome index s = .ok o ∧ o.isHolds = isTrue c.groups s index := by
  obtain ⟨o, ho, -⟩ := direct_eq_ok (s := s) hb (List.getElem?_eq_getElem hi)
  exact ⟨o, by rw [outcome_eq_direct, ho], by rw [isTrue, ho]⟩

theorem groupHolds_eq_ok {c : Condition} (hb : Backward c.groups) {index : Nat}
    (hi : index < c.groups.length) (s : Sentence) :
    c.groupHolds index s = .ok (isTrue c.groups s index) := by
  obtain ⟨o, ho, hval⟩ := outcome_eq_ok hb hi s
  rw [groupHolds, ho, ← hval]
  rfl

/-! ## Later groups -/

/-- The recursion looks at earlier groups only. -/
theorem direct_append {index : Nat} (hi : index < groups.length) (more : List Group) :
    direct (groups ++ more) s index = direct groups s index := by
  induction index using Nat.strongRecOn with
  | ind index ih =>
    have hg := List.getElem?_eq_getElem hi
    rw [direct_of_getElem? hg, direct_of_getElem? (by rw [List.getElem?_append_left hi, hg])]
    congr 1
    funext k hk
    exact ih k hk (by omega)

/-- Later groups do not matter to the truth of a group. -/
theorem isTrue_append {index : Nat} (hi : index < groups.length) (more : List Group) :
    isTrue (groups ++ more) s index = isTrue groups s index := by
  rw [isTrue, isTrue, direct_append hi]

end Condition

/-! ## The demand that is named -/

/-- The demand stands where it is said to stand. -/
def Unmet.Located (groups : List Group) : Unmet → Prop
  | .literal k position l =>
    ∃ g, groups[k]? = some g ∧ g.literals[position]? = some l
  | .run k position ls =>
    ∃ g, groups[k]? = some g ∧ .anyOf ls ∈ g.clauses ∧ ls <+: g.literals.drop position

namespace Condition

section Clauses

variable {group : Nat} {g : Group} {value : (k : Nat) → k < group → Except Fault Outcome}

theorem directLiteral_located
    (hv : ∀ k h unmet, value k h = .ok (.fails unmet) → unmet.Located groups)
    (hg : groups[group]? = some g) {position : Nat} {l : Literal}
    (hl : g.literals[position]? = some l) {unmet : Unmet}
    (h : directLiteral s group value position l = .ok (.fails unmet)) : unmet.Located groups := by
  have here : (Unmet.literal group position l).Located groups := ⟨g, hg, hl⟩
  unfold directLiteral at h
  split at h
  · split at h
    · cases h
    · cases h
      exact here
  · split at h
    · split at h
      · cases h
      · rename_i k _ hk _ o ho
        simp only [Except.ok.injEq] at h
        cases o with
        | holds =>
          simp only [ofGroup] at h
          split at h <;> cases h
          exact here
        | fails inner =>
          simp only [ofGroup] at h
          split at h <;> cases h
          exact hv k hk _ ho
    · cases h

/-- The clauses from a position on are named by the positions of their literals. -/
theorem directClauses_located
    (hv : ∀ k h unmet, value k h = .ok (.fails unmet) → unmet.Located groups)
    (hg : groups[group]? = some g) {position : Nat} {cs : List Clause}
    (hc : ∀ c ∈ cs, c ∈ g.clauses)
    (hp : g.literals.drop position = cs.flatMap Clause.literals) {unmet : Unmet}
    (h : directClauses s group value position cs = .ok (.fails unmet)) : unmet.Located groups := by
  induction cs generalizing position with
  | nil => cases h
  | cons c cs ih =>
    obtain ⟨hc₁, hcs⟩ := List.forall_mem_cons.1 hc
    rw [List.flatMap_cons] at hp
    have hnext : g.literals.drop (position + c.literals.length) = cs.flatMap Clause.literals := by
      rw [← List.drop_drop, hp, List.drop_left]
    cases c with
    | single l =>
      have hl : g.literals[position]? = some l := by
        rw [← List.head?_drop, hp]
        rfl
      rw [directClauses] at h
      split at h
      · cases h
      · exact ih hcs hnext h
      · rename_i unmet' hd
        cases h
        exact directLiteral_located hv hg hl hd
    | anyOf ls =>
      rw [directClauses] at h
      split at h
      · cases h
      · exact ih hcs hnext h
      · cases h
        exact ⟨g, hg, hc₁, hp ▸ List.prefix_append ls _⟩

end Clauses

/-- The demand that the recursion names stands where it says. -/
theorem direct_located {index : Nat} {unmet : Unmet}
    (h : direct groups s index = .ok (.fails unmet)) : unmet.Located groups := by
  induction index using Nat.strongRecOn generalizing unmet with
  | ind index ih =>
    cases hg : groups[index]? with
    | none =>
      rw [direct, hg] at h
      cases h
    | some g =>
      rw [direct_of_getElem? hg] at h
      have hrow : g.literals.drop 0 = g.clauses.flatMap Clause.literals := by
        rw [Group.clauses, Clause.flatMap_literals_ofLiterals, List.drop_zero]
      exact directClauses_located (fun k hk unmet hu => ih k hk hu) hg (fun c hc => hc) hrow h

/-- The demand that an evaluation names stands where it says. -/
theorem outcome_located {c : Condition} {index : Nat} {unmet : Unmet}
    (h : c.outcome index s = .ok (.fails unmet)) : unmet.Located c.groups :=
  direct_located (by rwa [outcome_eq_direct] at h)

end Condition

end WordLogic
