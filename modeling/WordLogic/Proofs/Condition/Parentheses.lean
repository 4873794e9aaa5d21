import Mathlib
import WordLogic.Proofs.Condition.Nesting
import WordLogic.Proofs.Token.Grammar

/-!
# Parentheses without a partner

Reading never counts how deep a text is nested; whether the parentheses fit is what the scan finds
on its way.

* `Paired`: the parentheses of a text fit, said by counting them.
* `advance_depth`: a scan has one buffer for each group that is open.
* `advance_unpaired`: hence it blames the parentheses only at a `)` that closes more groups than
  were opened.
* `ofText_parentheses`: a text that is read is paired and has a group for each `)` and one more; a
  text that is refused for its parentheses is not paired.
-/

namespace WordLogic

/-! ## Groups are not refused for parentheses -/

theorem Token.ofChars_ne_unpaired (raw : List Char) (text : String) :
    ofChars raw ≠ .error (.unpaired text) := by
  intro h
  have hfault := ofChars_eq_error h
  unfold fault bodyFault at hfault
  split at hfault <;> split at hfault <;> cases hfault

namespace Group

theorem Reading.next_ne_unpaired (available : Nat) (r : Reading) (raw : List Char) (text : String) :
    r.next available raw ≠ .error (.unpaired text) := by
  intro h
  unfold next at h
  split at h
  · rename_i e he
    cases h
    exact Token.ofChars_ne_unpaired raw text he
  · split at h <;> cases h
  · cases h

theorem Reading.foldlM_ne_unpaired (available : Nat) (pieces : List (List Char)) (r : Reading)
    (text : String) : pieces.foldlM (next available) r ≠ .error (.unpaired text) := by
  induction pieces generalizing r with
  | nil =>
    intro h
    cases h
  | cons raw pieces ih =>
    rw [List.foldlM_cons]
    cases hn : next available r raw with
    | error e =>
      intro h
      cases h
      exact next_ne_unpaired available r raw text hn
    | ok r' => exact ih r'

/-- What is wrong with a group is never a parenthesis. -/
theorem ofChars_ne_unpaired (available : Nat) (cs : List Char) (text : String) :
    ofChars available cs ≠ .error (.unpaired text) := by
  intro h
  unfold ofChars at h
  split at h
  · rename_i e he
    cases h
    exact Reading.foldlM_ne_unpaired available _ _ text he
  · split at h <;> cases h

end Group

namespace Scan

open Condition

/-! ## Texts whose parentheses fit -/

/-- No part from the start on closes more groups than it opens, and the whole text closes all that
it opens. -/
structure Paired (text : List Char) : Prop where
  count_le : ∀ read, read <+: text → read.count ')' ≤ read.count '('
  total : text.count '(' = text.count ')'

/-- A part from the start on of two texts is one of the first text, or goes beyond it. -/
theorem prefix_append_cases {read xs ys : List Char} (h : read <+: xs ++ ys) :
    read <+: xs ∨ ∃ read', read' <+: ys ∧ read = xs ++ read' := by
  obtain ⟨rest, hrest⟩ := h
  rcases List.append_eq_append_iff.1 hrest with ⟨mid, rfl, -⟩ | ⟨mid, rfl, rfl⟩
  · exact .inl ⟨mid, rfl⟩
  · exact .inr ⟨mid, ⟨rest, rfl⟩, rfl⟩

theorem Paired.append {xs ys : List Char} (hx : Paired xs) (hy : Paired ys) : Paired (xs ++ ys) where
  count_le read hread := by
    rcases prefix_append_cases hread with h | ⟨read', h, rfl⟩
    · exact hx.count_le read h
    · have := hy.count_le read' h
      have := hx.total
      simp only [List.count_append]
      omega
  total := by rw [List.count_append, List.count_append, hx.total, hy.total]

theorem paired_char {c : Char} (ho : c ≠ '(') (hc : c ≠ ')') : Paired [c] where
  count_le read hread := by
    rcases List.prefix_cons_iff.1 hread with rfl | ⟨_, rfl, hnil⟩
    · exact Nat.le_refl _
    · rw [List.prefix_nil.1 hnil, List.count_singleton, if_neg (by simpa using hc)]
      exact Nat.zero_le _
  total := by simp [ho, hc]

/-- A text in parentheses. -/
theorem Paired.nested {inner : List Char} (h : Paired inner) : Paired ('(' :: inner ++ [')']) where
  count_le read hread := by
    rcases List.prefix_cons_iff.1 hread with rfl | ⟨read, rfl, hread'⟩
    · exact Nat.le_refl _
    · rw [List.count_cons_self, List.count_cons_of_ne (by decide)]
      have hafter : read <+: inner ++ [')'] := hread'
      rcases prefix_append_cases hafter with hinner | ⟨last, hlast, rfl⟩
      · have := h.count_le read hinner
        omega
      · have := h.total
        have := hlast.sublist.count_le ')'
        rw [List.count_singleton_self] at this
        simp only [List.count_append]
        omega
  total := by
    have := h.total
    simp only [List.cons_append, List.count_cons, List.count_append, List.count_nil]
    simp
    omega

/-- **Where every parenthesis has its partner, the parentheses fit.** -/
theorem Balanced.paired {cs : List Char} (h : Balanced cs) : Paired cs := by
  induction h with
  | nil => exact ⟨fun read hread => by rw [List.prefix_nil.1 hread]; exact Nat.le_refl _, rfl⟩
  | char ho hc _ ih => exact (paired_char ho hc).append ih
  | @group inner cs _ _ ihi ih =>
    have := ihi.nested.append ih
    rwa [List.append_assoc, List.singleton_append] at this

/-- What is between margins without parentheses is paired if the whole is. -/
theorem Paired.of_margins {left cs right : List Char} (hl : Plain left) (hr : Plain right)
    (h : Paired (left ++ cs ++ right)) : Paired cs where
  count_le read hread := by
    have hprefix : left ++ read <+: left ++ cs ++ right :=
      ((List.prefix_append_right_inj left).2 hread).trans (List.prefix_append _ right)
    have hle := h.count_le (left ++ read) hprefix
    rwa [List.count_append, List.count_append, List.count_eq_zero.2 hl.1,
      List.count_eq_zero.2 hl.2, Nat.zero_add, Nat.zero_add] at hle
  total := by
    have htotal := h.total
    simp only [List.count_append, List.count_eq_zero.2 hl.1, List.count_eq_zero.2 hl.2,
      List.count_eq_zero.2 hr.1, List.count_eq_zero.2 hr.2] at htotal
    omega

/-! ## Scans that blame the parentheses -/

/-- A step opens a group with a `(` and closes one with a `)`. -/
theorem step_depth {st st' : Scan} {c : Char} {rest : List Char} (h : st.step c rest = .ok st') :
    st'.outer.length + [c].count ')' = st.outer.length + [c].count '(' := by
  obtain ⟨rfl, rfl⟩ | ⟨rfl, below, outer, g, ho, -, rfl⟩ | ⟨ho, hc, rfl⟩ := step_cases h
  · simp
  · simp [ho]
  · simp [ho, hc]

/-- **A scan has a buffer for each group that is open.** -/
theorem advance_depth {st st' : Scan} {read rest : List Char}
    (h : st.advance read rest = .ok st') :
    st'.outer.length + read.count ')' = st.outer.length + read.count '(' := by
  induction read generalizing st with
  | nil =>
    cases h
    rfl
  | cons c cs ih =>
    rw [advance] at h
    split at h
    · cases h
    · rename_i st₁ hs
      have hstep := step_depth hs
      have hrest := ih h
      rw [← List.singleton_append, List.count_append, List.count_append]
      omega

/-- A step blames the parentheses at a `)` when no group is open. -/
theorem step_unpaired {st : Scan} {c : Char} {rest : List Char} {text : String}
    (h : st.step c rest = .error (.unpaired text)) : c = ')' ∧ st.outer = [] := by
  unfold step at h
  split at h
  · cases h
  split at h
  · rename_i hc
    refine ⟨hc, ?_⟩
    unfold close at h
    split at h
    · assumption
    · split at h
      · rename_i e he
        cases h
        exact absurd he (Group.ofChars_ne_unpaired _ _ text)
      · cases h
  · cases h

/-- **A scan blames the parentheses at a `)` that closes more groups than were opened.** -/
theorem advance_unpaired {st : Scan} {read rest : List Char} {text : String}
    (h : st.advance read rest = .error (.unpaired text)) :
    ∃ before after, read = before ++ ')' :: after ∧
      before.count ')' = st.outer.length + before.count '(' := by
  induction read generalizing st with
  | nil => cases h
  | cons c cs ih =>
    rw [advance] at h
    split at h
    · rename_i e hs
      cases h
      obtain ⟨rfl, houter⟩ := step_unpaired hs
      exact ⟨[], cs, rfl, by rw [houter]; rfl⟩
    · rename_i st₁ hs
      obtain ⟨before, after, rfl, hcount⟩ := ih h
      have hstep := step_depth hs
      refine ⟨c :: before, after, rfl, ?_⟩
      rw [← List.singleton_append, List.count_append, List.count_append]
      omega

/-- The end of a text blames the parentheses when a group is open. -/
theorem finish_unpaired {st : Scan} {text : String} (h : st.finish = .error (.unpaired text)) :
    st.outer ≠ [] := by
  intro houter
  simp only [finish, houter] at h
  split at h
  · rename_i e he
    cases h
    exact Group.ofChars_ne_unpaired _ _ text he
  · cases h

/-- The parentheses of a text that is paired are not blamed. -/
theorem run_ne_unpaired {cs : List Char} (hp : Paired cs) (text : String) :
    start.run cs ≠ .error (.unpaired text) := by
  intro h
  unfold run at h
  split at h
  · rename_i e ha
    cases h
    obtain ⟨before, after, rfl, hcount⟩ := advance_unpaired ha
    have hle := hp.count_le (before ++ [')']) ⟨after, by simp⟩
    rw [start, List.length_nil, Nat.zero_add] at hcount
    simp [hcount] at hle
  · rename_i last ha
    have hdepth := advance_depth ha
    have htotal := hp.total
    rw [start, List.length_nil] at hdepth
    exact finish_unpaired h (List.eq_nil_of_length_eq_zero (by omega))

/-! ## Whole texts -/

theorem count_trim {c : Char} (h : Text.isBlank c = false) (cs : List Char) :
    (Text.trim cs).count c = cs.count c := by
  obtain ⟨left, right, heq, hl, hr⟩ := Text.exists_trim cs
  have hzero : ∀ {margin : List Char}, (∀ c ∈ margin, Text.isBlank c = true) →
      margin.count c = 0 := by
    intro margin hm
    refine List.count_eq_zero.2 fun hc => ?_
    rw [hm c hc] at h
    cases h
  conv => rhs; rw [heq]
  rw [List.count_append, List.count_append, hzero hl, hzero hr, Nat.zero_add, Nat.add_zero]

/-- **Parentheses are judged exactly.** The parentheses of a text that is read fit, it has a group
for each `)` and one more, and the root is the last of them. The parentheses of a text that is
refused for an unpaired one do not fit. -/
theorem ofText_parentheses (t : String) :
    (∀ c, Condition.ofText t = .ok c → Paired t.toList ∧
      c.groups.length = t.toList.count ')' + 1 ∧ c.groups.length = c.root + 1) ∧
    ∀ text, Condition.ofText t = .error (.unpaired text) → ¬Paired t.toList := by
  obtain ⟨left, right, heq, hl, hr⟩ := Text.exists_trim t.toList
  have hleft := plain_of_blanks hl
  have hright := plain_of_blanks hr
  constructor
  · intro c hc
    obtain ⟨hbalanced, groups, out, root, -, -, hlength, -, rfl⟩ := Scan.ofText_eq_ok hc
    have hwhole : Balanced t.toList := by
      rw [heq]
      exact ((balanced_of_plain hleft).append hbalanced).append (balanced_of_plain hright)
    rw [count_trim (by decide)] at hlength
    exact ⟨hwhole.paired, by simp [hlength], by simp⟩
  · intro text he hp
    rw [heq] at hp
    rw [ofText_eq_run] at he
    exact run_ne_unpaired (hp.of_margins hleft hright) text he

/-- A text with three groups, and one whose totals fit but that closes a group too early. -/
theorem ofText_parentheses_early :
    (∃ c, Condition.ofText "\t!((&a) | (&b))\n" = .ok c ∧ Paired "\t!((&a) | (&b))\n".toList ∧
      c.groups.length = 4 ∧ c.root = 3) ∧
    Condition.ofText "(&a) ) (&b" = .error (.unpaired "#0 ) (&b") ∧
      ¬Paired "(&a) ) (&b".toList := by
  obtain ⟨c, hc⟩ : ∃ c, Condition.ofText "\t!((&a) | (&b))\n" = .ok c :=
    ⟨_, (ofText_eq_run _).trans rfl⟩
  have hbad : Condition.ofText "(&a) ) (&b" = .error (.unpaired "#0 ) (&b") :=
    (ofText_eq_run _).trans rfl
  obtain ⟨hp, hlength, hroot⟩ := (ofText_parentheses "\t!((&a) | (&b))\n").1 c hc
  have hcount : "\t!((&a) | (&b))\n".toList.count ')' = 3 := by decide
  rw [hcount] at hlength
  exact ⟨⟨c, hc, hp, hlength, by omega⟩, hbad, (ofText_parentheses "(&a) ) (&b").2 _ hbad⟩

end Scan

end WordLogic
