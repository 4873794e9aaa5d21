import WordLogic.Proofs.Condition.Scan

/-!
# Nested groups of a text

* `Balanced`: every parenthesis of a text has its partner. `Spliced`: the text with references in
  place of its outermost groups.
* `advance_spliced`: a scan that gets through a balanced text gets through it from any buffers; it
  leaves the buffers as they are and writes what is spliced to the current one.
* `ofText_eq_ok`: a text that is read is balanced, and the root is what is spliced.
-/

namespace WordLogic.Scan

open Condition

/-! ## Balanced texts -/

/-- Every parenthesis of the text has its partner. -/
inductive Balanced : List Char → Prop
  | nil : Balanced []
  | char {c : Char} {cs : List Char} (ho : c ≠ '(') (hc : c ≠ ')') (h : Balanced cs) :
      Balanced (c :: cs)
  | group {inner cs : List Char} (hi : Balanced inner) (h : Balanced cs) :
      Balanced ('(' :: inner ++ ')' :: cs)

theorem Balanced.append {xs ys : List Char} (hx : Balanced xs) (hy : Balanced ys) :
    Balanced (xs ++ ys) := by
  induction hx with
  | nil => exact hy
  | char ho hc _ ih => exact .char ho hc ih
  | group hi _ _ ih =>
    rw [List.append_assoc, List.cons_append]
    exact .group hi ih

theorem plain_of_blanks {cs : List Char} (h : ∀ c ∈ cs, Text.isBlank c = true) : Plain cs :=
  ⟨fun hm => absurd (h _ hm) (by decide), fun hm => absurd (h _ hm) (by decide)⟩

theorem balanced_of_plain {cs : List Char} (h : Plain cs) : Balanced cs := by
  induction cs with
  | nil => exact .nil
  | cons c cs ih =>
    obtain ⟨ho, hc⟩ := h
    simp only [List.mem_cons, not_or] at ho hc
    exact .char (Ne.symm ho.1) (Ne.symm hc.1) (ih ⟨ho.2, hc.2⟩)

/-- A text in parentheses. -/
theorem Balanced.nested {inner : List Char} (h : Balanced inner) :
    Balanced ('(' :: inner ++ [')']) :=
  .group h .nil

/-! ## Texts with references in place of groups -/

/-- The second text is the first with references in place of its outermost groups, when `k` groups
have closed before it. -/
inductive Spliced : Nat → List Char → List Char → Prop
  | nil (k : Nat) : Spliced k [] []
  | char {k : Nat} {c : Char} {cs out : List Char} (ho : c ≠ '(') (hc : c ≠ ')')
      (h : Spliced k cs out) : Spliced k (c :: cs) (c :: out)
  | group {k : Nat} {inner within cs out : List Char} (hi : Spliced k inner within)
      (h : Spliced (k + inner.count ')' + 1) cs out) :
      Spliced k ('(' :: inner ++ ')' :: cs) (reference (k + inner.count ')') ++ out)

theorem Balanced.exists_spliced {cs : List Char} (h : Balanced cs) (k : Nat) :
    ∃ out, Spliced k cs out := by
  induction h generalizing k with
  | nil => exact ⟨[], .nil k⟩
  | char ho hc _ ih =>
    obtain ⟨out, hout⟩ := ih k
    exact ⟨_, .char ho hc hout⟩
  | group _ _ ihi ih =>
    obtain ⟨within, hi⟩ := ihi k
    obtain ⟨out, hout⟩ := ih _
    exact ⟨_, .group hi hout⟩

theorem count_group (inner cs : List Char) :
    ('(' :: inner ++ ')' :: cs).count ')' = inner.count ')' + 1 + cs.count ')' := by
  rw [List.cons_append, List.count_cons_of_ne (by decide), List.count_append, List.count_cons_self]
  omega

theorem Spliced.append {k : Nat} {xs ys xs' ys' : List Char} (hx : Spliced k xs xs')
    (hy : Spliced (k + xs.count ')') ys ys') : Spliced k (xs ++ ys) (xs' ++ ys') := by
  induction hx with
  | nil k => simpa using hy
  | char ho hc _ ih =>
    refine .char ho hc (ih ?_)
    rwa [List.count_cons_of_ne hc] at hy
  | group hi _ _ ih =>
    rw [List.append_assoc, List.append_assoc, List.cons_append]
    refine .group hi (ih ?_)
    rwa [count_group, ← Nat.add_assoc, ← Nat.add_assoc] at hy

/-! ## Scans of balanced texts -/

/-- A text that a scan gets through is gone through piece by piece. -/
theorem advance_append_eq_ok {st st' : Scan} {xs ys rest : List Char}
    (h : st.advance (xs ++ ys) rest = .ok st') :
    ∃ mid, st.advance xs (ys ++ rest) = .ok mid ∧ mid.advance ys rest = .ok st' := by
  rw [advance_append] at h
  split at h
  · cases h
  · rename_i mid hmid
    exact ⟨mid, hmid, h⟩

/-- A scan gets past a `)` if a group is open and the current buffer is read as a group. -/
theorem advance_closing_eq_ok {st st' : Scan} {rest : List Char}
    (h : st.advance [')'] rest = .ok st') :
    ∃ below outer g, st.outer = below :: outer ∧
      Group.ofChars st.groups.length st.current = .ok g ∧
      st' = ⟨st.groups ++ [g], outer, below ++ reference st.groups.length⟩ := by
  rw [advance, List.nil_append] at h
  split at h
  · cases h
  · rename_i st₁ hs
    cases h
    obtain ⟨hp, -⟩ | ⟨-, below, outer, g, ho, hg, rfl⟩ | ⟨-, hp, -⟩ := step_cases hs
    · cases hp
    · exact ⟨below, outer, g, ho, hg, rfl⟩
    · exact absurd rfl hp

theorem advance_char {c : Char} (ho : c ≠ '(') (hc : c ≠ ')') (st : Scan) (cs rest : List Char) :
    st.advance (c :: cs) rest = { st with current := st.current ++ [c] }.advance cs rest := by
  rw [advance, step, if_neg ho, if_neg hc]

/-- **A scan goes through a balanced text alike from any buffers**, if it does from some. It adds a
group for each `)`, and to the current buffer what is spliced. -/
theorem advance_spliced {k : Nat} {cs out : List Char} (hs : Spliced k cs out) {gs : List Group}
    (hk : gs.length = k) {outer : List (List Char)} {current rest : List Char} {st : Scan}
    (h : (Scan.mk gs outer current).advance cs rest = .ok st) :
    ∃ more : List Group, more.length = cs.count ')' ∧ ∀ outer current rest,
      (Scan.mk gs outer current).advance cs rest = .ok ⟨gs ++ more, outer, current ++ out⟩ := by
  induction hs generalizing gs outer current rest st with
  | nil k => exact ⟨[], rfl, fun _ _ _ => by simp [advance]⟩
  | char ho hc _ ih =>
    rw [advance_char ho hc] at h
    obtain ⟨more, hmore, hall⟩ := ih hk h
    refine ⟨more, by rw [hmore, List.count_cons_of_ne hc], fun outer current rest => ?_⟩
    rw [advance_char ho hc, hall, List.append_assoc, List.singleton_append]
  | @group k inner within cs out _ _ ihi ih =>
    have hpieces : '(' :: inner ++ ')' :: cs = ['('] ++ (inner ++ ([')'] ++ cs)) := rfl
    rw [hpieces] at h
    obtain ⟨_, hopen, h⟩ := advance_append_eq_ok h
    cases hopen
    obtain ⟨_, hinner, h⟩ := advance_append_eq_ok h
    obtain ⟨more, hmore, hall⟩ := ihi hk hinner
    rw [hall] at hinner
    cases hinner
    obtain ⟨_, hclose, h⟩ := advance_append_eq_ok h
    obtain ⟨_, _, g, ho, hg, rfl⟩ := advance_closing_eq_ok hclose
    have hlength : (gs ++ more).length = k + inner.count ')' := by
      rw [List.length_append, hk, hmore]
    have hnext : (gs ++ more ++ [g]).length = k + inner.count ')' + 1 := by
      rw [List.length_append, hlength, List.length_singleton]
    obtain ⟨more', hmore', hall'⟩ := ih hnext h
    refine ⟨more ++ g :: more', ?_, fun outer current rest => ?_⟩
    · rw [count_group, List.length_append, List.length_cons, hmore, hmore']
      omega
    · rw [hpieces]
      have hclosed :
          (Scan.mk (gs ++ more) (current :: outer) ([] ++ within)).advance [')'] (cs ++ rest) =
            .ok ⟨gs ++ more ++ [g], outer, current ++ reference (gs ++ more).length⟩ := by
        rw [advance_closing, close]
        simp only [hg]
      refine (advance_trans (advance_open _ _) (advance_trans (hall _ _ _)
        (advance_trans hclosed (hall' _ _ _)))).trans ?_
      simp [hlength]

/-! ## Texts that are read -/

/-- What has been read when so many groups are open: balanced texts with a `(` between
neighbours. -/
def Opens (read : List Char) (depth : Nat) : Prop :=
  ∃ texts current, texts.length = depth ∧ (∀ text ∈ texts, Balanced text) ∧ Balanced current ∧
    read = written texts current

/-- A step opens a group, closes one, or does neither. -/
theorem step_opens {st st' : Scan} {c : Char} {read rest : List Char}
    (ho : Opens read st.outer.length) (h : st.step c rest = .ok st') :
    Opens (read ++ [c]) st'.outer.length := by
  obtain ⟨texts, current, hlength, htexts, hcurrent, rfl⟩ := ho
  obtain ⟨rfl, rfl⟩ | ⟨rfl, below, outer, g, houter, -, rfl⟩ | ⟨hopen, hclose, rfl⟩ := step_cases h
  · refine ⟨current :: texts, [], by simp [hlength], ?_, .nil, ?_⟩
    · exact List.forall_mem_cons.2 ⟨hcurrent, htexts⟩
    · rw [written, written_append]
  · rw [houter, List.length_cons] at hlength
    obtain ⟨text, texts, rfl⟩ := List.exists_cons_of_length_eq_add_one hlength
    obtain ⟨htext, htexts⟩ := List.forall_mem_cons.1 htexts
    refine ⟨texts, text ++ ('(' :: current ++ [')']), by simpa using hlength, htexts,
      htext.append hcurrent.nested, ?_⟩
    simp only [written, written_append]
    simp
  · refine ⟨texts, current ++ [c], hlength, htexts, hcurrent.append (.char hopen hclose .nil), ?_⟩
    rw [written_append]

/-- What a scan has read, when so many groups are open. -/
theorem advance_opens {st st' : Scan} {before read rest : List Char}
    (ho : Opens before st.outer.length) (h : st.advance read rest = .ok st') :
    Opens (before ++ read) st'.outer.length := by
  induction read generalizing st before with
  | nil =>
    cases h
    rwa [List.append_nil]
  | cons c cs ih =>
    rw [advance] at h
    split at h
    · cases h
    · rename_i st₁ hs
      have := ih (step_opens ho hs) h
      rwa [List.append_assoc, List.singleton_append] at this

/-- A text is read if it is balanced, its groups are read, and what is left of it is. -/
theorem ofText_eq_ok {t : String} {c : Condition} (h : Condition.ofText t = .ok c) :
    Balanced (Text.trim t.toList) ∧
    ∃ groups out root, Spliced 0 (Text.trim t.toList) out ∧
      (∀ outer current rest, (Scan.mk [] outer current).advance (Text.trim t.toList) rest =
        .ok ⟨groups, outer, current ++ out⟩) ∧
      groups.length = (Text.trim t.toList).count ')' ∧
      Group.ofChars groups.length out = .ok root ∧ c = ⟨groups ++ [root], groups.length⟩ := by
  rw [ofText_eq_run] at h
  obtain ⟨last, root, ha, ho, hroot, rfl⟩ := run_eq_ok h
  have hopens : Opens (Text.trim t.toList) 0 := by
    have hstart : Opens [] start.outer.length := ⟨[], [], rfl, nofun, .nil, rfl⟩
    have := advance_opens hstart ha
    rwa [ho] at this
  obtain ⟨texts, current, hlength, -, hcurrent, hread⟩ := hopens
  obtain rfl := List.eq_nil_of_length_eq_zero hlength
  rw [written] at hread
  rw [← hread] at hcurrent
  obtain ⟨out, hout⟩ := hcurrent.exists_spliced 0
  obtain ⟨groups, hgroups, hall⟩ := advance_spliced hout rfl ha
  rw [start, hall] at ha
  cases ha
  exact ⟨hcurrent, groups, out, root, hout, hall, hgroups, hroot, rfl⟩

end WordLogic.Scan
