import Mathlib
import WordLogic.Proofs.Group.Runs
import WordLogic.Proofs.RuleSet.Reachable

/-!
# Reasons are sufficient

The reason that is given when a sentence fails a condition is a reason for all sentences: it is true
of this one, and the condition fails for every other of which it is true (`Reason.Explains`).

* `Unmet.Refutes`, `direct_refutes`: the demand that is named for a group fails, and wherever it
  fails the group does. A demand is passed on from a group to those that refer to it, but not by a
  negated reference and not out of a run of alternatives.
* `reachable_explains`: hence the reasons of the rules of a set are sufficient.
-/

namespace WordLogic

variable {groups : List Group} {s : Sentence}

/-! ## Demands -/

namespace Unmet

/-- The demand fails for the sentence. -/
def FailsFor (groups : List Group) (s : Sentence) : Unmet → Prop
  | .literal _ _ l => l.isTrue s (Condition.isTrue groups s) = false
  | .run _ _ ls => ∀ l ∈ ls, l.isTrue s (Condition.isTrue groups s) = false

/-- The demand fails for `s`, and whenever it fails for a sentence, `goal` is false of that
sentence. A reference that is named is negated. -/
structure Refutes (groups : List Group) (s : Sentence) (goal : Sentence → Bool) (u : Unmet) :
    Prop where
  failsFor : u.FailsFor groups s
  sufficient : ∀ s', u.FailsFor groups s' → goal s' = false
  negated : ∀ g position l k, u = .literal g position l → l.atom = .group k → l.negated = true

theorem Refutes.mono {goal goal' : Sentence → Bool} {u : Unmet} (h : u.Refutes groups s goal)
    (hgoal : ∀ s', goal s' = false → goal' s' = false) : u.Refutes groups s goal' where
  failsFor := h.failsFor
  sufficient s' hs' := hgoal s' (h.sufficient s' hs')
  negated := h.negated

end Unmet

namespace Condition

section Clauses

variable {group : Nat}

/-- What is named for an earlier group refutes that group. -/
def EarlierRefuted (groups : List Group) (s : Sentence) (group : Nat) : Prop :=
  ∀ k u, k < group → direct groups s k = .ok (.fails u) →
    u.Refutes groups s fun s' => isTrue groups s' k

/-- A literal that fails and is named itself. -/
theorem literal_refutes {position : Nat} {l : Literal}
    (hfails : l.isTrue s (isTrue groups s) = false)
    (hneg : ∀ k, l.atom = .group k → l.negated = true) :
    (Unmet.literal group position l).Refutes groups s fun s' => l.isTrue s' (isTrue groups s') where
  failsFor := hfails
  sufficient _ h := h
  negated := by
    rintro _ _ _ k ⟨rfl⟩ hk
    exact hneg k hk

theorem directLiteral_refutes
    (hv : ∀ k, k < group → ∃ o, direct groups s k = .ok o ∧ o.isHolds = isTrue groups s k)
    (hearlier : EarlierRefuted groups s group) {position : Nat} {l : Literal}
    (hl : ∀ k, l.atom = .group k → k < group) {u : Unmet}
    (h : directLiteral s group (fun k _ => direct groups s k) position l = .ok (.fails u)) :
    u.Refutes groups s fun s' => l.isTrue s' (isTrue groups s') := by
  have hfails : l.isTrue s (isTrue groups s) = false := by
    obtain ⟨o, ho, hval⟩ := directLiteral_eq_ok (s := s) hv position hl
    cases h.symm.trans ho
    exact hval.symm
  unfold directLiteral at h
  cases ha : l.atom with
  | word w =>
    simp only [ha, Except.ok.injEq] at h
    split at h
    · cases h
    · cases h
      exact literal_refutes hfails (by simp [ha])
  | group k =>
    have hk := hl k ha
    obtain ⟨o, ho, -⟩ := hv k hk
    simp only [ha, hk, ↓reduceDIte, ho, Except.ok.injEq] at h
    cases o with
    | holds =>
      simp only [ofGroup] at h
      split at h
      · cases h
        exact literal_refutes hfails fun _ _ => ‹_›
      · cases h
    | fails inner =>
      simp only [ofGroup] at h
      split at h
      · cases h
      · rename_i hneg
        cases h
        refine (hearlier k _ hk ho).mono fun s' hs' => ?_
        simp [Literal.isTrue, ha, hs', hneg]

theorem directClauses_refutes
    (hv : ∀ k, k < group → ∃ o, direct groups s k = .ok o ∧ o.isHolds = isTrue groups s k)
    (hearlier : EarlierRefuted groups s group) {position : Nat} {cs : List Clause}
    (hl : ∀ l ∈ cs.flatMap Clause.literals, ∀ k, l.atom = .group k → k < group) {u : Unmet}
    (h : directClauses s group (fun k _ => direct groups s k) position cs = .ok (.fails u)) :
    u.Refutes groups s fun s' => cs.all (·.isTrue s' (isTrue groups s')) := by
  induction cs generalizing position with
  | nil => cases h
  | cons c cs ih =>
    rw [List.flatMap_cons, List.forall_mem_append] at hl
    obtain ⟨hc, hcs⟩ := hl
    have hrest {position : Nat}
        (h : directClauses s group (fun k _ => direct groups s k) position cs = .ok (.fails u)) :
        u.Refutes groups s fun s' => (c :: cs).all (·.isTrue s' (isTrue groups s')) := by
      refine (ih hcs h).mono fun s' hs' => ?_
      rw [List.all_cons, hs', Bool.and_false]
    cases c with
    | single l =>
      rw [directClauses] at h
      split at h
      · cases h
      · exact hrest h
      · rename_i unmet hd
        cases h
        have hlit := directLiteral_refutes hv hearlier (hc l (List.mem_singleton_self l)) hd
        refine hlit.mono fun s' hs' => ?_
        rw [List.all_cons, Clause.isTrue, hs', Bool.false_and]
    | anyOf ls =>
      have hany : directAny s group (fun k _ => direct groups s k) position ls = .ok _ :=
        directAny_eq_ok hv position hc
      rw [directClauses, hany] at h
      cases hls : ls.any (·.isTrue s (isTrue groups s)) with
      | true =>
        rw [hls] at h
        exact hrest h
      | false =>
        rw [hls] at h
        cases h
        refine ⟨by simpa [Unmet.FailsFor] using hls, fun s' hs' => ?_, by simp⟩
        have : ls.any (·.isTrue s' (isTrue groups s')) = false := by
          simpa [Unmet.FailsFor] using hs'
        rw [List.all_cons, Clause.isTrue, this, Bool.false_and]

end Clauses

/-- **The demand that is named is to blame.** It fails, and every sentence for which it fails fails
the group. The induction is on the index: what is passed on comes from an earlier group. -/
theorem direct_refutes (hb : Backward groups) {index : Nat} {u : Unmet}
    (h : direct groups s index = .ok (.fails u)) :
    u.Refutes groups s fun s' => isTrue groups s' index := by
  induction index using Nat.strongRecOn generalizing u with
  | ind index ih =>
    cases hg : groups[index]? with
    | none =>
      rw [direct, hg] at h
      cases h
    | some g =>
      have hlt := (List.getElem?_eq_some_iff.1 hg).1
      have hv : ∀ k, k < index →
          ∃ o, direct groups s k = .ok o ∧ o.isHolds = isTrue groups s k := by
        intro k hk
        obtain ⟨o, ho, -⟩ := direct_eq_ok (s := s) hb (List.getElem?_eq_getElem (hk.trans hlt))
        exact ⟨o, ho, by rw [isTrue, ho]⟩
      rw [direct_of_getElem? hg] at h
      have hrow : g.clauses.flatMap Clause.literals = g.literals :=
        Clause.flatMap_literals_ofLiterals g.literals
      have hl : ∀ l ∈ g.clauses.flatMap Clause.literals, ∀ k, l.atom = .group k → k < index := by
        rw [hrow]
        exact hb index g hg
      have hcs := directClauses_refutes hv (fun k u hk hu => ih k hk hu) hl h
      refine hcs.mono fun s' hs' => ?_
      rw [isTrue_eq hb hg]
      exact hs'

end Condition

/-! ## Reasons -/

/-- The literal holds in a condition: the word is in the sentence, or the group holds, unless the
literal is negated. -/
def Literal.HoldsIn (c : Condition) (s : Sentence) (l : Literal) : Prop :=
  match l.atom with
  | .word w => s.contains w = !l.negated
  | .group k => c.groupHolds k s = .ok !l.negated

/-- The reason is true of `s`, and every sentence of which it is true fails the condition. -/
def Reason.Explains (c : Condition) (s : Sentence) : Reason → Prop
  | .wordAbsent w =>
    s.contains w = false ∧ ∀ s' : Sentence, s'.contains w = false → c.holds s' = .ok false
  | .wordPresent w =>
    s.contains w = true ∧ ∀ s' : Sentence, s'.contains w = true → c.holds s' = .ok false
  | .groupHolds k =>
    c.groupHolds k s = .ok true ∧ ∀ s', c.groupHolds k s' = .ok true → c.holds s' = .ok false
  | .noAlternative terms =>
    ∃ (k : Nat) (g : Group) (run : List Literal), c.groups[k]? = some g ∧ g.IsRun run ∧
      terms = run.map Literal.render ∧ (∀ l ∈ run, ¬l.HoldsIn c s) ∧
      ∀ s', (∀ l ∈ run, ¬l.HoldsIn c s') → c.holds s' = .ok false

namespace Condition

variable {c : Condition}

theorem not_holdsIn_iff (hb : Backward c.groups) {i : Nat} {g : Group} (hg : c.groups[i]? = some g)
    {l : Literal} (hl : l ∈ g.literals) (s : Sentence) :
    ¬l.HoldsIn c s ↔ l.isTrue s (isTrue c.groups s) = false := by
  unfold Literal.HoldsIn Literal.isTrue
  cases ha : l.atom with
  | word w =>
    simp only []
    cases s.contains w <;> cases l.negated <;> simp
  | group k =>
    have hk : k < c.groups.length :=
      (hb i g hg l hl k ha).trans (List.getElem?_eq_some_iff.1 hg).1
    simp only [groupHolds_eq_ok hb hk]
    cases isTrue c.groups s k <;> cases l.negated <;> simp

/-- The reason for the demand that is named explains why the condition fails. -/
theorem reason_explains (hw : c.WellFormed) {u : Unmet}
    (h : c.outcome c.root s = .ok (.fails u)) : u.reason.Explains c s := by
  have hb := hw.backward
  have hlocated := outcome_located h
  rw [outcome_eq_direct] at h
  obtain ⟨hfails, hsufficient, hneg⟩ := direct_refutes hb h
  have hfalse : ∀ s', u.FailsFor c.groups s' → c.holds s' = .ok false := by
    intro s' hs'
    rw [holds, groupHolds_eq_ok hb hw.root_lt, hsufficient s' hs']
  cases u with
  | literal i position l =>
    obtain ⟨connective, negated, atom⟩ := l
    obtain ⟨g, hg, hl⟩ := hlocated
    cases atom with
    | word w =>
      cases negated with
      | false =>
        refine ⟨by simpa [Unmet.FailsFor, Literal.isTrue] using hfails, fun s' hs' => hfalse s' ?_⟩
        simp [Unmet.FailsFor, Literal.isTrue, hs']
      | true =>
        refine ⟨by simpa [Unmet.FailsFor, Literal.isTrue] using hfails, fun s' hs' => hfalse s' ?_⟩
        simp [Unmet.FailsFor, Literal.isTrue, hs']
    | group k =>
      have hnegated : negated = true := hneg i position _ k rfl rfl
      subst hnegated
      have hk : k < c.groups.length := by
        have := hb i g hg _ (List.mem_of_getElem? hl) k rfl
        exact this.trans (List.getElem?_eq_some_iff.1 hg).1
      have hfails_iff : ∀ s', (Unmet.literal i position ⟨connective, true, .group k⟩).FailsFor
          c.groups s' ↔ c.groupHolds k s' = .ok true := by
        intro s'
        rw [groupHolds_eq_ok hb hk]
        simp [Unmet.FailsFor, Literal.isTrue]
      exact ⟨(hfails_iff s).1 hfails, fun s' hs' => hfalse s' ((hfails_iff s').2 hs')⟩
  | run i position ls =>
    obtain ⟨g, hg, hclause, -⟩ := hlocated
    have hls : ∀ l ∈ ls, l ∈ g.literals := fun l => Group.mem_literals hclause
    have hfails_iff : ∀ s', (Unmet.run i position ls).FailsFor c.groups s' ↔
        ∀ l ∈ ls, ¬l.HoldsIn c s' := by
      intro s'
      exact forall₂_congr fun l hl => (not_holdsIn_iff hb hg (hls l hl) s').symm
    exact ⟨i, g, ls, hg, Clause.isRun_of_mem_clauses hclause, rfl, (hfails_iff s).1 hfails,
      fun s' hs' => hfalse s' ((hfails_iff s').2 hs')⟩

end Condition

/-- **Reasons are sufficient.** For a rule of a reachable set a reason is given exactly when the
sentence fails the rule, and it explains the failure. -/
theorem RuleSet.reachable_explains {rs : RuleSet} (h : rs.Reachable) {e : Entry}
    (he : e ∈ rs.entries) (s : Sentence) :
    ∃ reason, e.condition.reason? s = .ok reason ∧ e.condition.holds s = .ok reason.isNone ∧
      ∀ r, reason = some r → r.Explains e.condition s := by
  have hw := h.wellFormed.conditions e he
  obtain ⟨o, ho, -⟩ := Condition.outcome_eq_ok hw.backward hw.root_lt s
  rw [Condition.reason?, Condition.holds, Condition.groupHolds, ho]
  cases o with
  | holds =>
    refine ⟨none, rfl, rfl, ?_⟩
    intro r hr
    cases hr
  | fails u =>
    refine ⟨some u.reason, rfl, rfl, ?_⟩
    rintro _ ⟨rfl⟩
    exact Condition.reason_explains hw ho

/-- The run of a group that is referred to twice explains why the root fails. -/
theorem RuleSet.reachable_explains_run :
    ∃ rs e, (build [⟨1, 0, "(&a | &b) !(#0 &c)"⟩]).value = .ok rs ∧ e ∈ rs.entries ∧
      e.condition.reason? (Sentence.ofText "c") = .ok (some (.noAlternative ["&A", "&B"])) ∧
      (Reason.noAlternative ["&A", "&B"]).Explains e.condition (Sentence.ofText "c") := by
  let c : Condition :=
    ⟨[⟨[.word .or "a" false, .word .or "b" false]⟩,
      ⟨[.group .and 0 false, .word .and "c" false]⟩,
      ⟨[.group .and 0 false, .group .and 1 true]⟩], 2⟩
  have hc : (Rule.mk 1 0 "(&a | &b) !(#0 &c)").condition = .ok c := by cbv
  have hreason :
      c.reason? (Sentence.ofText "c") = .ok (some (.noAlternative ["&A", "&B"])) := by cbv
  have hbuild : (build [⟨1, 0, "(&a | &b) !(#0 &c)"⟩]).value = .ok _ :=
    build_eq_ok_iff.2 ⟨by decide, _, readEntries_cons hc rfl, rfl⟩
  have hmem : ⟨⟨1, 0, "(&a | &b) !(#0 &c)"⟩, c⟩ ∈ sortEntries [⟨⟨1, 0, "(&a | &b) !(#0 &c)"⟩, c⟩] :=
    (sortEntries_perm _).mem_iff.2 List.mem_cons_self
  obtain ⟨reason, hr, -, hexplains⟩ :=
    reachable_explains (.built hbuild) hmem (Sentence.ofText "c")
  rw [hreason] at hr
  exact ⟨_, _, hbuild, hmem, hreason, hexplains _ (Except.ok.inj hr).symm⟩

end WordLogic
