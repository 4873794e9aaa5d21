import WordLogic.Condition.Reading
import WordLogic.Proofs.Text.Uppercase

/-!
# Conditions that are read are well formed

* `Token.ofChars_spelled`: a token that is recognised has a word where it should have one.
* `Group.ofChars_fits`: the literals of a group that is read fit into the group after those it could
  refer to, and there is at least one.
* `ofText_wellFormed`: hence a condition that is read is well formed, however the references of the
  text and those put in for groups are mixed.
-/

namespace WordLogic

/-! ## Tokens -/

/-- The words of the token are not empty. -/
def Token.Spelled : Token → Prop
  | .bar => True
  | .group _ _ => True
  | .word w _ => w ≠ []
  | .expansion base _ _ => base ≠ []

namespace Token

theorem word?_spelled {cs : List Char} {negated : Bool} {t : Token}
    (h : word? cs negated = some t) : t.Spelled := by
  unfold word? at h
  simp only at h
  split at h
  · cases h
  · rename_i hne
    cases h
    exact hne
  · rename_i hne _
    obtain ⟨endings, -, rfl⟩ := Option.map_eq_some_iff.1 h
    exact hne

theorem ofBody_spelled {raw body : List Char} {negated : Bool} {t : Token}
    (h : ofBody raw negated body = .ok t) : t.Spelled := by
  unfold ofBody at h
  split at h
  · split at h
    · cases h
      trivial
    · cases h
  · split at h <;> cases h
    trivial
  · split at h
    · rename_i token hw
      cases h
      exact word?_spelled hw
    · cases h
  · cases h

/-- A token that is recognised has a word where it should have one. -/
theorem ofChars_spelled {raw : List Char} {t : Token} (h : ofChars raw = .ok t) : t.Spelled := by
  unfold ofChars at h
  split at h <;> exact ofBody_spelled h

end Token

/-! ## Groups -/

theorem Atom.fits_word {cs : List Char} (h : cs ≠ []) (index : Nat) :
    (Atom.word (Text.uppercase (String.ofList cs))).Fits index :=
  ⟨Text.uppercase_ne_empty h, Text.uppercase_uppercase _⟩

namespace Group

/-- The literals that have been read fit into the group with an index. -/
def Reading.Fits (index : Nat) (r : Reading) : Prop := ∀ l ∈ r.literals, l.atom.Fits index

namespace Reading

theorem start_fits (index : Nat) : start.Fits index := by simp [start, Fits]

theorem bar_fits {index : Nat} {r : Reading} (h : r.Fits index) : r.bar.Fits index := by
  obtain ⟨literals, pending⟩ := r
  cases literals with
  | nil => exact h
  | cons l ls =>
    obtain ⟨hl, hls⟩ := List.forall_mem_cons.1 h
    exact List.forall_mem_cons.2 ⟨hl, hls⟩

theorem expansion_fits {base : List Char} (h : base ≠ []) (endings : List (List Char))
    (negated : Bool) (index : Nat) : ∀ l ∈ expansion base endings negated, l.atom.Fits index := by
  intro l hl
  obtain ⟨w, hw, rfl⟩ := List.mem_map.1 hl
  refine Atom.fits_word ?_ index
  rcases List.mem_cons.1 hw with rfl | hw
  · exact h
  · obtain ⟨ending, -, rfl⟩ := List.mem_map.1 hw
    simp [h]

/-- Taking in a token keeps the literals fitting. -/
theorem push_fits {index : Nat} {r : Reading} (h : r.Fits index) {t : Token} (ht : t.Spelled)
    (hk : ∀ k negated, t = .group k negated → k < index) : (r.push t).Fits index := by
  cases t with
  | bar => exact bar_fits h
  | group k negated => exact List.forall_mem_cons.2 ⟨hk k negated rfl, h⟩
  | word w negated => exact List.forall_mem_cons.2 ⟨Atom.fits_word ht index, h⟩
  | expansion base endings negated =>
    refine List.forall_mem_append.2 ⟨fun l hl => ?_, h⟩
    exact expansion_fits ht endings negated index l (List.mem_reverse.1 hl)

/-- What `next` does: it recognises a token, checks a reference, and takes the token in. -/
theorem next_eq_ok {available : Nat} {r r' : Reading} {raw : List Char}
    (h : next available r raw = .ok r') :
    ∃ t, Token.ofChars raw = .ok t ∧ (∀ k negated, t = .group k negated → k < available) ∧
      r' = r.push t := by
  unfold next at h
  split at h
  · cases h
  · rename_i k negated ht
    split at h
    · rename_i hk
      cases h
      refine ⟨_, ht, ?_, rfl⟩
      rintro k' negated' he
      cases he
      exact hk
    · cases h
  · rename_i t hne ht
    cases h
    exact ⟨t, ht, fun k negated he => absurd he (hne k negated), rfl⟩

theorem foldlM_fits {available : Nat} {pieces : List (List Char)} {r r' : Reading}
    (hr : r.Fits available) (h : pieces.foldlM (next available) r = .ok r') :
    r'.Fits available := by
  induction pieces generalizing r with
  | nil =>
    cases h
    exact hr
  | cons raw pieces ih =>
    rw [List.foldlM_cons] at h
    cases hn : next available r raw with
    | error e =>
      rw [hn] at h
      cases h
    | ok r₁ =>
      rw [hn] at h
      obtain ⟨t, ht, hk, rfl⟩ := next_eq_ok hn
      exact ih (push_fits hr (Token.ofChars_spelled ht) hk) h

end Reading

/-- The literals of a group that is read fit, and there is at least one. -/
theorem ofChars_fits {available : Nat} {text : List Char} {g : Group}
    (h : ofChars available text = .ok g) :
    g.literals ≠ [] ∧ ∀ l ∈ g.literals, l.atom.Fits available := by
  unfold ofChars at h
  split at h
  · cases h
  · rename_i r hr
    split at h
    · cases h
    · rename_i hne
      cases h
      refine ⟨by simpa using hne, fun l hl => ?_⟩
      exact Reading.foldlM_fits (Reading.start_fits available) hr l (List.mem_reverse.1 hl)

end Group

/-! ## Conditions -/

namespace Condition

/-- No group is empty, and every atom fits. -/
def GroupsFit (groups : List Group) : Prop :=
  ∀ (i : Nat) (g : Group), groups[i]? = some g → g.literals ≠ [] ∧ ∀ l ∈ g.literals, l.atom.Fits i

theorem GroupsFit.wellFormed {groups : List Group} (h : GroupsFit groups) {root : Nat}
    (hr : root < groups.length) : (Condition.mk groups root).WellFormed where
  root_lt := hr
  literals_ne_nil g hg := by
    obtain ⟨i, hi⟩ := List.mem_iff_getElem?.1 hg
    exact (h i g hi).1
  fits i g hi := (h i g hi).2

/-- What holds of each group at its index, and of one more at the next, holds of all of them. -/
theorem forall_getElem?_concat {P : Nat → Group → Prop} {groups : List Group} {g : Group}
    (h : ∀ (i : Nat) (g' : Group), groups[i]? = some g' → P i g') (hg : P groups.length g) :
    ∀ (i : Nat) (g' : Group), (groups ++ [g])[i]? = some g' → P i g' := by
  intro i g' hi
  rcases Nat.lt_trichotomy i groups.length with hlt | rfl | hgt
  · rw [List.getElem?_append_left hlt] at hi
    exact h i g' hi
  · rw [List.getElem?_concat_length] at hi
    cases hi
    exact hg
  · rw [List.getElem?_eq_none (by simp; omega)] at hi
    cases hi

section Groups

variable {P : Nat → Group → Prop}
  (hread : ∀ available text g, Group.ofChars available text = .ok g → P available g)

include hread

/-- Each round of reading adds a group that is read with the groups before it. -/
theorem resolve_groups {groups : List Group}
    (hg : ∀ (i : Nat) (g : Group), groups[i]? = some g → P i g) {text : List Char} {c : Condition}
    (h : resolve groups text = .ok c) :
    c.root < c.groups.length ∧ ∀ (i : Nat) (g : Group), c.groups[i]? = some g → P i g := by
  fun_induction resolve groups text with
  | case1 => cases h
  | case2 => cases h
  | case3 => cases h
  | case4 groups text hc ho g hr =>
    cases h
    exact ⟨by simp, forall_getElem?_concat hg (hread _ _ _ hr)⟩
  | case5 => cases h
  | case6 groups text before inner after hc g hr ih =>
    exact ih (forall_getElem?_concat hg (hread _ _ _ hr)) h

/-- What holds of every group that is read with the groups before it, holds of all groups of a
condition that is read. -/
theorem ofText_groups {text : String} {c : Condition} (h : ofText text = .ok c) :
    c.root < c.groups.length ∧ ∀ (i : Nat) (g : Group), c.groups[i]? = some g → P i g :=
  resolve_groups hread (by simp) h

end Groups

/-- **A condition that is read is well formed.** -/
theorem ofText_wellFormed {text : String} {c : Condition} (h : ofText text = .ok c) :
    c.WellFormed := by
  obtain ⟨hroot, hgroups⟩ := ofText_groups (fun _ _ _ => Group.ofChars_fits) h
  exact GroupsFit.wellFormed hgroups hroot

end Condition

end WordLogic
