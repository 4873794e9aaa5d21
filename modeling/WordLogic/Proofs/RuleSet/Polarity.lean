import Mathlib
import WordLogic.Proofs.Group.Runs
import WordLogic.Proofs.RuleSet.Reachable

/-!
# More words

A rule can ask for a word by many paths: from its root through references to a literal of the word.
A path is positive when an even number of the literals on it is negated (`Condition.LeadsTo`,
`negations`). Words that a rule asks for by positive paths only can be added to a sentence that
satisfies it, and words that it asks for by negative paths only can be left out
(`RuleSet.reachable_polarity`).

Both directions are one statement with a sign (`Rises`): a reference takes it over from the group to
its literals, and a negated literal turns it round (`Condition.hasSign_iff`). A group may be reached
with both signs at once; then no new word may stand below it.
-/

namespace WordLogic

/-! ## Paths -/

/-- The literals lead from a group to a word: each of them refers to the group of the next one, and
the last one asks for the word. -/
inductive Condition.LeadsTo (groups : List Group) (w : String) : Nat → List Literal → Prop
  | word {i : Nat} {g : Group} {l : Literal} (hg : groups[i]? = some g) (hl : l ∈ g.literals)
      (hw : l.atom = .word w) : LeadsTo groups w i [l]
  | group {i k : Nat} {g : Group} {l : Literal} {path : List Literal} (hg : groups[i]? = some g)
      (hl : l ∈ g.literals) (hk : l.atom = .group k) (h : LeadsTo groups w k path) :
      LeadsTo groups w i (l :: path)

/-- A path goes through a literal of its group: it ends there, or it goes on from the group that the
literal refers to. -/
theorem Condition.LeadsTo.exists_literal {groups : List Group} {w : String} {i : Nat} {g : Group}
    {path : List Literal} (h : LeadsTo groups w i path) (hg : groups[i]? = some g) :
    ∃ l ∈ g.literals, (l.atom = .word w ∧ path = [l]) ∨
      ∃ k rest, l.atom = .group k ∧ LeadsTo groups w k rest ∧ path = l :: rest := by
  cases h with
  | word hg' hl hw =>
    cases hg.symm.trans hg'
    exact ⟨_, hl, .inl ⟨hw, rfl⟩⟩
  | group hg' hl hk h =>
    cases hg.symm.trans hg'
    exact ⟨_, hl, .inr ⟨_, _, hk, h, rfl⟩⟩

/-- The number of negated literals on a path. -/
def negations (path : List Literal) : Nat := path.countP (·.negated)

@[simp] theorem negations_cons (l : Literal) (path : List Literal) :
    negations (l :: path) = negations path + if l.negated then 1 else 0 :=
  List.countP_cons

namespace Condition

/-- Every path from the root to the word has an even number of negated literals. -/
def OnlyPositive (c : Condition) (w : String) : Prop :=
  ∀ path, LeadsTo c.groups w c.root path → Even (negations path)

/-- Every path from the root to the word has an odd number of negated literals. -/
def OnlyNegative (c : Condition) (w : String) : Prop :=
  ∀ path, LeadsTo c.groups w c.root path → Odd (negations path)

end Condition

/-! ## Signs -/

/-- If the first is true, so is the second; with the negative sign, if the first is false, so is the
second. -/
def Rises (negative a b : Bool) : Prop := (a != negative) = true → (b != negative) = true

namespace Rises

variable {negative : Bool}

theorem refl (negative a : Bool) : Rises negative a a := id

/-- Negation turns the sign round. -/
theorem negate {a b : Bool} (negated : Bool) (h : Rises (negative != negated) a b) :
    Rises negative (a != negated) (b != negated) := by
  revert h
  cases negative <;> cases negated <;> cases a <;> cases b <;> simp [Rises]

theorem all {α : Type} {xs : List α} {f g : α → Bool} (h : ∀ x ∈ xs, Rises negative (f x) (g x)) :
    Rises negative (xs.all f) (xs.all g) := by
  cases negative with
  | false =>
    simp only [Rises, Bool.bne_false, List.all_eq_true] at h ⊢
    exact fun hf x hx => h x hx (hf x hx)
  | true =>
    simp only [Rises, Bool.bne_true, Bool.not_eq_true', List.all_eq_false] at h ⊢
    rintro ⟨x, hx, hf⟩
    exact ⟨x, hx, by simp [h x hx (by simpa using hf)]⟩

theorem any {α : Type} {xs : List α} {f g : α → Bool} (h : ∀ x ∈ xs, Rises negative (f x) (g x)) :
    Rises negative (xs.any f) (xs.any g) := by
  cases negative with
  | false =>
    simp only [Rises, Bool.bne_false, List.any_eq_true] at h ⊢
    rintro ⟨x, hx, hf⟩
    exact ⟨x, hx, h x hx hf⟩
  | true =>
    simp only [Rises, Bool.bne_true, Bool.not_eq_true', List.any_eq_false] at h ⊢
    intro hf x hx
    simp [h x hx (by simpa using hf x hx)]

end Rises

variable {groups : List Group} {s s' : Sentence} {negative : Bool} {v v' : Nat → Bool}

/-! ## Groups -/

theorem Literal.rises {l : Literal}
    (hword : ∀ w, l.atom = .word w → Rises (negative != l.negated) (s.contains w) (s'.contains w))
    (hgroup : ∀ k, l.atom = .group k → Rises (negative != l.negated) (v k) (v' k)) :
    Rises negative (l.isTrue s v) (l.isTrue s' v') := by
  unfold isTrue
  cases ha : l.atom with
  | word w => exact (hword w ha).negate l.negated
  | group k => exact (hgroup k ha).negate l.negated

theorem Clause.rises {c : Clause}
    (h : ∀ l ∈ c.literals, Rises negative (l.isTrue s v) (l.isTrue s' v')) :
    Rises negative (c.isTrue s v) (c.isTrue s' v') := by
  cases c with
  | single l => exact h l (List.mem_singleton_self l)
  | anyOf ls => exact Rises.any h

/-- A group follows its literals: neither clauses nor runs of alternatives negate. -/
theorem Group.rises {g : Group}
    (h : ∀ l ∈ g.literals, Rises negative (l.isTrue s v) (l.isTrue s' v')) :
    Rises negative (g.isTrue s v) (g.isTrue s' v') :=
  Rises.all fun _ hc => Clause.rises fun l hl => h l (mem_literals hc hl)

namespace Condition

/-- Every path from the group to the word has the sign. -/
def HasSign (groups : List Group) (negative : Bool) (index : Nat) (w : String) : Prop :=
  ∀ path, LeadsTo groups w index path → (negations path % 2 = 1 ↔ negative = true)

/-- The sign of a group literal by literal: a literal of the word has it, and a reference takes it
over to its group, turned round if it is negated. -/
theorem hasSign_iff {index : Nat} {g : Group} {w : String} (hg : groups[index]? = some g) :
    HasSign groups negative index w ↔ ∀ l ∈ g.literals,
      (l.atom = .word w → l.negated = negative) ∧
      ∀ k, l.atom = .group k → HasSign groups (negative != l.negated) k w := by
  constructor
  · intro h l hl
    refine ⟨fun hw => ?_, fun k hk path hpath => ?_⟩
    · have hsign := h [l] (.word hg hl hw)
      cases hn : l.negated <;> simpa [negations, hn] using hsign
    · have hsign := h (l :: path) (.group hg hl hk hpath)
      cases hn : l.negated <;> cases negative <;> simp [hn] at hsign ⊢ <;> omega
  · intro h path hpath
    obtain ⟨l, hl, ⟨hw, rfl⟩ | ⟨k, rest, hk, hrest, rfl⟩⟩ := hpath.exists_literal hg
    · have hsign := (h l hl).1 hw
      cases hn : l.negated <;> simp [negations, hn, ← hsign]
    · have hsign := (h l hl).2 k hk rest hrest
      cases hn : l.negated <;> cases negative <;> simp [hn] at hsign ⊢ <;> omega

theorem onlyPositive_iff {c : Condition} {w : String} :
    c.OnlyPositive w ↔ HasSign c.groups false c.root w := by
  simp [OnlyPositive, HasSign, Nat.even_iff]

theorem onlyNegative_iff {c : Condition} {w : String} :
    c.OnlyNegative w ↔ HasSign c.groups true c.root w := by
  simp [OnlyNegative, HasSign, Nat.odd_iff]

/-- The words that only the second sentence has are reached with the sign. -/
def NewHaveSign (groups : List Group) (s s' : Sentence) (negative : Bool) (index : Nat) : Prop :=
  ∀ w, s'.contains w = true → s.contains w = false → HasSign groups negative index w

/-- A literal takes the sign over, or turns it round, for the group that it refers to. -/
theorem NewHaveSign.reference {index k : Nat} {g : Group} {l : Literal}
    (h : NewHaveSign groups s s' negative index) (hg : groups[index]? = some g)
    (hl : l ∈ g.literals) (hk : l.atom = .group k) :
    NewHaveSign groups s s' (negative != l.negated) k := by
  intro w hw hnew
  exact ((hasSign_iff hg).1 (h w hw hnew) l hl).2 k hk

/-- The words of a literal have its sign. -/
theorem NewHaveSign.word {index : Nat} {g : Group} {l : Literal} {w : String}
    (h : NewHaveSign groups s s' negative index)
    (hs : ∀ w, s.contains w = true → s'.contains w = true) (hg : groups[index]? = some g)
    (hl : l ∈ g.literals) (hw : l.atom = .word w) :
    Rises (negative != l.negated) (s.contains w) (s'.contains w) := by
  cases hold : s.contains w with
  | true =>
    rw [hs w hold]
    exact Rises.refl _ _
  | false =>
    cases hnew : s'.contains w with
    | false => exact Rises.refl _ _
    | true =>
      have hsign := ((hasSign_iff hg).1 (h w hnew hold) l hl).1 hw
      simp [Rises, hsign]

/-- **New words move a group in the direction of their sign.** The induction is on the index, for
both signs at once, as a negated reference changes the sign. -/
theorem isTrue_rises (hb : Backward groups)
    (hs : ∀ w, s.contains w = true → s'.contains w = true) {index : Nat}
    (hi : index < groups.length) (h : NewHaveSign groups s s' negative index) :
    Rises negative (isTrue groups s index) (isTrue groups s' index) := by
  induction index using Nat.strongRecOn generalizing negative with
  | ind index ih =>
    have hg := List.getElem?_eq_getElem hi
    rw [isTrue_eq hb hg, isTrue_eq hb hg]
    apply Group.rises
    intro l hl
    apply Literal.rises
    · intro w hw
      exact h.word hs hg hl hw
    · intro k hk
      have hlt : k < index := hb index _ hg l hl k hk
      exact ih k hlt (by omega) (h.reference hg hl hk)

end Condition

/-- **Polarity.** Let a sentence have all words of another one, and a rule of a reachable set ask for
the words that are new. If it asks for them by positive paths only, it holds for the second sentence
when it holds for the first; if by negative paths only, it holds for the first when it holds for the
second. -/
theorem RuleSet.reachable_polarity {rs : RuleSet} (h : rs.Reachable) {e : Entry}
    (he : e ∈ rs.entries) {s s' : Sentence}
    (hs : ∀ w, s.contains w = true → s'.contains w = true) :
    ∃ holds holds', e.condition.holds s = .ok holds ∧ e.condition.holds s' = .ok holds' ∧
      ((∀ w, s'.contains w = true → s.contains w = false → e.condition.OnlyPositive w) →
        holds = true → holds' = true) ∧
      ((∀ w, s'.contains w = true → s.contains w = false → e.condition.OnlyNegative w) →
        holds' = true → holds = true) := by
  have hw := h.wellFormed.conditions e he
  have hb := hw.backward
  refine ⟨_, _, Condition.groupHolds_eq_ok hb hw.root_lt s,
    Condition.groupHolds_eq_ok hb hw.root_lt s', fun hnew => ?_, fun hnew => ?_⟩
  · have hrises := Condition.isTrue_rises hb hs hw.root_lt fun w hw hn =>
      Condition.onlyPositive_iff.1 (hnew w hw hn)
    simpa [Rises] using hrises
  · have hrises := Condition.isTrue_rises hb hs hw.root_lt fun w hw hn =>
      Condition.onlyNegative_iff.1 (hnew w hw hn)
    intro hholds
    by_contra hfalse
    simp [Rises, hholds, hfalse] at hrises

/-- The first group is reached with both references positive, and with both of them negated. -/
theorem RuleSet.reachable_polarity_shared :
    ∃ rs e, (build [⟨1, 0, "(&a | &b) !(!#0 &c)"⟩]).value = .ok rs ∧ e ∈ rs.entries ∧
      e.condition.OnlyPositive "A" ∧ e.condition.OnlyNegative "C" ∧
      e.condition.holds (Sentence.ofText "c b") = .ok true ∧
      e.condition.holds (Sentence.ofText "b") = .ok true ∧
      e.condition.holds (Sentence.ofText "a b") = .ok true := by
  let c : Condition :=
    ⟨[⟨[.word .or "a" false, .word .or "b" false]⟩,
      ⟨[.group .and 0 true, .word .and "c" false]⟩,
      ⟨[.group .and 0 false, .group .and 1 true]⟩], 2⟩
  have hc : (Rule.mk 1 0 "(&a | &b) !(!#0 &c)").condition = .ok c := (Scan.ofText_eq_run _).trans rfl
  have hbuild : (build [⟨1, 0, "(&a | &b) !(!#0 &c)"⟩]).value = .ok _ :=
    build_eq_ok_iff.2 ⟨by decide, _, readEntries_cons hc rfl, rfl⟩
  have hmem : ⟨⟨1, 0, "(&a | &b) !(!#0 &c)"⟩, c⟩ ∈
      sortEntries [⟨⟨1, 0, "(&a | &b) !(!#0 &c)"⟩, c⟩] :=
    (sortEntries_perm _).mem_iff.2 List.mem_cons_self
  have hb : (Sentence.ofText "b").tokens = ["B"] := by decide
  have hab : (Sentence.ofText "a b").tokens = ["A", "B"] := by decide
  have hcb : (Sentence.ofText "c b").tokens = ["C", "B"] := by decide
  have hwords : Text.uppercase "a" = "A" ∧ Text.uppercase "b" = "B" ∧ Text.uppercase "c" = "C" := by
    decide
  have hpositive : c.OnlyPositive "A" := by
    have hfirst : Condition.HasSign c.groups false 0 "A" :=
      (Condition.hasSign_iff rfl).2 (by simp [Literal.word, hwords])
    have hsecond : Condition.HasSign c.groups true 1 "A" :=
      (Condition.hasSign_iff rfl).2 (by simp [Literal.word, Literal.group, hwords, hfirst])
    rw [Condition.onlyPositive_iff, Condition.hasSign_iff rfl]
    simp [Literal.group, hfirst, hsecond]
  have hnegative : c.OnlyNegative "C" := by
    have hfirst : Condition.HasSign c.groups true 0 "C" :=
      (Condition.hasSign_iff rfl).2 (by simp [Literal.word, hwords])
    have hsecond : Condition.HasSign c.groups false 1 "C" :=
      (Condition.hasSign_iff rfl).2 (by simp [Literal.word, Literal.group, hwords, hfirst])
    rw [Condition.onlyNegative_iff, Condition.hasSign_iff rfl]
    simp [Literal.group, hfirst, hsecond]
  have hholds : c.holds (Sentence.ofText "c b") = .ok true := by cbv
  have hfewer : c.holds (Sentence.ofText "b") = .ok true := by
    have hsub : ∀ w, (Sentence.ofText "b").contains w = true →
        (Sentence.ofText "c b").contains w = true := by
      simp +contextual [Sentence.contains, hb, hcb]
    obtain ⟨x, y, hx, hy, -, hdown⟩ := reachable_polarity (.built hbuild) hmem hsub
    rw [hholds] at hy
    cases hy
    rw [hx, hdown (fun w hw hnew => ?_) rfl]
    obtain rfl : w = "C" := by
      simp only [Sentence.contains, hb, hcb] at hw hnew
      simp_all
    exact hnegative
  have hmore : c.holds (Sentence.ofText "a b") = .ok true := by
    have hsub : ∀ w, (Sentence.ofText "b").contains w = true →
        (Sentence.ofText "a b").contains w = true := by
      simp +contextual [Sentence.contains, hb, hab]
    obtain ⟨x, y, hx, hy, hup, -⟩ := reachable_polarity (.built hbuild) hmem hsub
    rw [hfewer] at hx
    cases hx
    rw [hy, hup (fun w hw hnew => ?_) rfl]
    obtain rfl : w = "A" := by
      simp only [Sentence.contains, hb, hab] at hw hnew
      simp_all
    exact hpositive
  exact ⟨_, _, hbuild, hmem, hpositive, hnegative, hholds, hfewer, hmore⟩

end WordLogic
