import WordLogic.Condition.Reading

/-!
# Reading a condition in one pass

`Condition.ofText` looks for the first group to close, puts a reference in its place and begins
anew. A `Scan` goes over the text once, from left to right, and keeps a stack of buffers: `(` puts
an empty buffer on it, `)` reads the top buffer as a group and writes its reference to the buffer
below, every other character goes to the top buffer.

* `resolve_eq_run`: the two agree from every state that a scan can reach. The text that is left to
  be resolved is the text of the buffers followed by the characters not yet read.
* `Advances`, `advance_groups`: a scan only adds groups, one for each `)`, so a group keeps its
  index.
* `ofText_eq_scan`: hence the two agree on every text, and the group of the `)` with the number `k`
  has the index `k`.
-/

namespace WordLogic

open Condition

/-- How far a text has been read: the groups that have closed, the buffers of the groups that are
open around the current one, the innermost first, and the buffer of the current one. -/
structure Scan where
  groups : List Group
  outer : List (List Char)
  current : List Char
deriving Repr, DecidableEq

namespace Scan

/-- Nothing has been read. -/
def start : Scan := ⟨[], [], []⟩

/-- The buffers as text, with a `(` between neighbours. -/
def written : (outer : List (List Char)) → (current : List Char) → List Char
  | [], current => current
  | below :: outer, current => written outer (below ++ '(' :: current)

/-- What has been read, with references in place of the groups that have closed. -/
def text (st : Scan) : List Char := written st.outer st.current

/-- Closes the current group; `rest` is what follows the `)`. -/
def close (st : Scan) (rest : List Char) : Except TextError Scan :=
  match st.outer with
  | [] => .error (.unpaired (String.ofList (st.text ++ ')' :: rest)))
  | below :: outer =>
    match Group.ofChars st.groups.length st.current with
    | .error e => .error e
    | .ok g => .ok ⟨st.groups ++ [g], outer, below ++ reference st.groups.length⟩

/-- Takes a character in; `rest` is what follows it. -/
def step (st : Scan) (c : Char) (rest : List Char) : Except TextError Scan :=
  if c = '(' then .ok ⟨st.groups, st.current :: st.outer, []⟩
  else if c = ')' then st.close rest
  else .ok { st with current := st.current ++ [c] }

/-- Takes characters in, one after the other; `rest` is what follows them. -/
def advance (st : Scan) : (read rest : List Char) → Except TextError Scan
  | [], _ => .ok st
  | c :: cs, rest =>
    match st.step c (cs ++ rest) with
    | .error e => .error e
    | .ok st => advance st cs rest

/-- The condition at the end of a text: no group may be open, and what is left is the root. -/
def finish (st : Scan) : Except TextError Condition :=
  match st.outer with
  | [] =>
    match Group.ofChars st.groups.length st.current with
    | .error e => .error e
    | .ok g => .ok ⟨st.groups ++ [g], st.groups.length⟩
  | _ :: _ => .error (.unpaired (String.ofList st.text))

/-- Reads the rest of a text. -/
def run (st : Scan) (rest : List Char) : Except TextError Condition :=
  match st.advance rest [] with
  | .error e => .error e
  | .ok st => st.finish

/-- The condition that a scan of the trimmed text finds. -/
def ofText (text : String) : Except TextError Condition := start.run (Text.trim text.toList)

/-! ## Steps -/

theorem written_append (outer : List (List Char)) (xs ys : List Char) :
    written outer (xs ++ ys) = written outer xs ++ ys := by
  induction outer generalizing xs with
  | nil => rfl
  | cons below outer ih =>
    simp only [written]
    rw [← ih, List.append_assoc, List.cons_append]

theorem advance_append (st : Scan) (xs ys rest : List Char) :
    st.advance (xs ++ ys) rest =
      match st.advance xs (ys ++ rest) with
      | .error e => .error e
      | .ok st => st.advance ys rest := by
  induction xs generalizing st with
  | nil => rfl
  | cons c cs ih =>
    simp only [List.cons_append, advance, List.append_assoc]
    cases st.step c (cs ++ (ys ++ rest)) with
    | error e => rfl
    | ok st' => exact ih st'

/-- Two texts are taken in one after the other. -/
theorem advance_trans {a b c : Scan} {xs ys rest : List Char}
    (h : a.advance xs (ys ++ rest) = .ok b) (h' : b.advance ys rest = .ok c) :
    a.advance (xs ++ ys) rest = .ok c := by
  rw [advance_append, h]
  exact h'

theorem advance_open (st : Scan) (rest : List Char) :
    st.advance ['('] rest = .ok ⟨st.groups, st.current :: st.outer, []⟩ :=
  rfl

theorem advance_closing (st : Scan) (rest : List Char) :
    st.advance [')'] rest = st.close rest := by
  rw [advance, List.nil_append, step, if_neg (by decide), if_pos rfl]
  cases st.close rest with
  | error e => rfl
  | ok st' => rfl

/-- A text without parentheses goes to the current buffer. -/
theorem advance_plain {cs : List Char} (ho : '(' ∉ cs) (hc : ')' ∉ cs) (st : Scan)
    (rest : List Char) :
    st.advance cs rest = .ok { st with current := st.current ++ cs } := by
  induction cs generalizing st with
  | nil => simp [advance]
  | cons c cs ih =>
    simp only [List.mem_cons, not_or] at ho hc
    have hs : st.step c (cs ++ rest) = .ok { st with current := st.current ++ [c] } := by
      rw [step, if_neg (Ne.symm ho.1), if_neg (Ne.symm hc.1)]
    simp only [advance, hs]
    rw [ih ho.2 hc.2]
    simp

/-- What a step can do: open a group, close one, or take a character to the current buffer. -/
theorem step_cases {st st' : Scan} {c : Char} {rest : List Char} (h : st.step c rest = .ok st') :
    (c = '(' ∧ st' = ⟨st.groups, st.current :: st.outer, []⟩) ∨
    (c = ')' ∧ ∃ below outer g, st.outer = below :: outer ∧
      Group.ofChars st.groups.length st.current = .ok g ∧
      st' = ⟨st.groups ++ [g], outer, below ++ reference st.groups.length⟩) ∨
    (c ≠ '(' ∧ c ≠ ')' ∧ st' = { st with current := st.current ++ [c] }) := by
  unfold step at h
  by_cases ho : c = '('
  · rw [if_pos ho] at h
    cases h
    exact .inl ⟨ho, rfl⟩
  rw [if_neg ho] at h
  by_cases hc : c = ')'
  · rw [if_pos hc, close] at h
    cases houter : st.outer with
    | nil => simp [houter] at h
    | cons below outer =>
      cases hg : Group.ofChars st.groups.length st.current with
      | error e => simp [houter, hg] at h
      | ok g =>
        simp only [houter, hg, Except.ok.injEq] at h
        exact .inr (.inl ⟨hc, below, outer, g, rfl, rfl, h.symm⟩)
  · rw [if_neg hc] at h
    cases h
    exact .inr (.inr ⟨ho, hc, rfl⟩)

/-! ## A scan only adds groups -/

/-- The second state comes after the first, with so many more groups. -/
def Advances (st st' : Scan) (count : Nat) : Prop :=
  ∃ more, st'.groups = st.groups ++ more ∧ more.length = count

theorem Advances.trans {a b c : Scan} {m n : Nat} (h : Advances a b m) (h' : Advances b c n) :
    Advances a c (m + n) := by
  obtain ⟨xs, hx, rfl⟩ := h
  obtain ⟨ys, hy, rfl⟩ := h'
  exact ⟨xs ++ ys, by rw [hy, hx, List.append_assoc], List.length_append⟩

/-- A step adds a group if it reads a `)` and nothing else. -/
theorem step_groups {st st' : Scan} {c : Char} {rest : List Char}
    (h : st.step c rest = .ok st') : Advances st st' ([c].count ')') := by
  obtain ⟨rfl, rfl⟩ | ⟨rfl, _, _, g, -, -, rfl⟩ | ⟨-, hc, rfl⟩ := step_cases h
  · exact ⟨[], by simp⟩
  · exact ⟨[g], by simp⟩
  · exact ⟨[], by simp [hc]⟩

/-- A scan adds a group for each `)`. -/
theorem advance_groups {st st' : Scan} {read rest : List Char}
    (h : st.advance read rest = .ok st') : Advances st st' (read.count ')') := by
  induction read generalizing st with
  | nil =>
    cases h
    exact ⟨[], by simp⟩
  | cons c cs ih =>
    simp only [advance] at h
    split at h
    · cases h
    · rename_i st₁ hs
      rw [← List.singleton_append, List.count_append]
      exact (step_groups hs).trans (ih h)

/-! ## The text that is left to be resolved -/

/-- The text has no parenthesis. -/
def Plain (cs : List Char) : Prop := '(' ∉ cs ∧ ')' ∉ cs

theorem Plain.append {xs ys : List Char} (hx : Plain xs) (hy : Plain ys) : Plain (xs ++ ys) :=
  ⟨by simp [hx.1, hy.1], by simp [hx.2, hy.2]⟩

/-- The characters of a reference are the mark and digits: no parenthesis, no blank. -/
theorem reference_mem {k : Nat} {c : Char} (h : c ∈ reference k) :
    c ≠ '(' ∧ c ≠ ')' ∧ Text.isBlank c = false := by
  rcases List.mem_cons.1 h with rfl | h
  · decide
  · have hd := Nat.isDigit_of_mem_toDigits (by decide) (by decide) h
    refine ⟨fun e => by simp [e] at hd, fun e => by simp [e] at hd, ?_⟩
    simp only [Char.isDigit, Bool.and_eq_true, decide_eq_true_eq] at hd
    have h1 : 48 ≤ c.toNat := hd.1
    have h2 : c.toNat ≤ 57 := hd.2
    simp [Text.isBlank, Text.blankRanges]
    omega

theorem reference_plain (k : Nat) : Plain (reference k) :=
  ⟨fun h => (reference_mem h).1 rfl, fun h => (reference_mem h).2.1 rfl⟩

/-- A reference can take the place of a part of a trimmed text without a blank at its ends. -/
theorem replaced_eq (before part after : List Char) (k : Nat)
    (h : Text.trim (before ++ part ++ after) = before ++ part ++ after) :
    replaced before k after = before ++ reference k ++ after :=
  Text.trim_exchange (List.cons_ne_nil _ _)
    (fun _ hc => (reference_mem (List.mem_of_head? hc)).2.2)
    (fun _ hc => (reference_mem (List.mem_of_getLast? hc)).2.2) h

/-- No buffer has a parenthesis in it. -/
structure Clean (st : Scan) : Prop where
  current : Plain st.current
  outer : ∀ b ∈ st.outer, Plain b

theorem start_clean : start.Clean := ⟨by simp [start, Plain], by simp [start]⟩

/-- A step leaves no parenthesis in a buffer. -/
theorem step_clean {st st' : Scan} {c : Char} {rest : List Char} (hc : st.Clean)
    (h : st.step c rest = .ok st') : st'.Clean := by
  obtain ⟨-, rfl⟩ | ⟨-, below, outer, g, ho, -, rfl⟩ | ⟨ho, hc', rfl⟩ := step_cases h
  · exact ⟨by simp [Plain], List.forall_mem_cons.2 ⟨hc.current, hc.outer⟩⟩
  · have := hc.outer
    rw [ho, List.forall_mem_cons] at this
    exact ⟨this.1.append (reference_plain _), this.2⟩
  · exact ⟨hc.current.append ⟨by simpa using Ne.symm ho, by simpa using Ne.symm hc'⟩, hc.outer⟩

theorem not_mem_written {outer : List (List Char)} {current : List Char} (hc : ')' ∉ current)
    (ho : ∀ b ∈ outer, Plain b) : ')' ∉ written outer current := by
  induction outer generalizing current with
  | nil => exact hc
  | cons below outer ih =>
    obtain ⟨hb, ho⟩ := List.forall_mem_cons.1 ho
    exact ih (by simp [hb.2, hc]) ho

/-- The buffers hold no `)`. -/
theorem Clean.not_mem_text {st : Scan} (h : st.Clean) : ')' ∉ st.text :=
  not_mem_written h.current.2 h.outer

theorem run_cons (st : Scan) (c : Char) (cs : List Char) :
    st.run (c :: cs) =
      match st.step c cs with
      | .error e => .error e
      | .ok st => st.run cs := by
  simp only [run, advance, List.append_nil]
  cases st.step c cs <;> rfl

theorem text_root {st : Scan} (h : st.outer = []) : st.text = st.current := by
  rw [text, h, written]

theorem text_nested {st : Scan} {below : List Char} {outer : List (List Char)}
    (h : st.outer = below :: outer) : st.text = written outer below ++ '(' :: st.current := by
  rw [text, h, written, written_append]

/-- At the end of a text, what is left is resolved as a scan finishes. -/
theorem resolve_eq_finish {st : Scan} (hc : st.Clean) :
    resolve st.groups st.text = st.finish := by
  have ha := closing_absent hc.not_mem_text
  unfold finish
  cases ho : st.outer with
  | nil =>
    rw [text_root ho] at ha ⊢
    exact resolve_root _ ha hc.current.1
  | cons below outer => exact resolve_open _ ha (by rw [text_nested ho]; simp)

/-- At a `)`, what is left is resolved as a scan closes the current group. -/
theorem resolve_close {st : Scan} (hc : st.Clean) {rest : List Char}
    (ht : Text.trim (st.text ++ ')' :: rest) = st.text ++ ')' :: rest) :
    resolve st.groups (st.text ++ ')' :: rest) =
      match st.close rest with
      | .error e => .error e
      | .ok st' => resolve st'.groups (st'.text ++ rest) := by
  unfold close
  cases ho : st.outer with
  | nil =>
    rw [text_root ho]
    exact resolve_unopened _ (closing_unopened rest hc.current.2 hc.current.1)
  | cons below outer =>
    obtain ⟨hb, houter⟩ := List.forall_mem_cons.1 (ho ▸ hc.outer)
    rw [text_nested ho] at ht ⊢
    have hbelow : ')' ∉ written outer below := not_mem_written hb.2 houter
    rw [resolve_group _ (closing_group rest hbelow hc.current.2 hc.current.1)]
    cases Group.ofChars st.groups.length st.current with
    | error e => rfl
    | ok g =>
      have hr := replaced_eq (written outer below) ('(' :: st.current ++ [')']) rest
        st.groups.length (by simpa using ht)
      simp only [hr, text, written_append]

/-- A step that opens or closes nothing, or opens a group, leaves the text as it is. -/
theorem step_text {st st' : Scan} {c : Char} {rest : List Char} (hc : c ≠ ')')
    (h : st.step c rest = .ok st') :
    st'.groups = st.groups ∧ st'.text ++ rest = st.text ++ c :: rest := by
  obtain ⟨rfl, rfl⟩ | ⟨rfl, -⟩ | ⟨-, -, rfl⟩ := step_cases h
  · simp [text, written, written_append]
  · exact absurd rfl hc
  · simp [text, written_append]

/-- A step leaves a trimmed text trimmed. -/
theorem step_trimmed {st st' : Scan} {c : Char} {rest : List Char}
    (h : st.step c rest = .ok st')
    (ht : Text.trim (st.text ++ c :: rest) = st.text ++ c :: rest) :
    Text.trim (st'.text ++ rest) = st'.text ++ rest := by
  by_cases hc : c = ')'
  · obtain ⟨rfl, -⟩ | ⟨-, below, outer, g, ho, -, rfl⟩ | ⟨-, hne, -⟩ := step_cases h
    · cases hc
    · rw [text_nested ho, hc] at ht
      have hr := replaced_eq (written outer below) ('(' :: st.current ++ [')']) rest
        st.groups.length (by simpa using ht)
      simp only [text, written_append]
      rw [← hr]
      exact Text.trim_trim _
    · exact absurd hc hne
  · rw [(step_text hc h).2, ht]

/-- **The two agree from every state of a scan.** The text to resolve is the text of the buffers,
then the characters not yet read. It is trimmed at first, and stays so. -/
theorem resolve_eq_run {st : Scan} (hc : st.Clean) (rest : List Char)
    (ht : Text.trim (st.text ++ rest) = st.text ++ rest) :
    resolve st.groups (st.text ++ rest) = st.run rest := by
  induction rest generalizing st with
  | nil =>
    rw [List.append_nil, resolve_eq_finish hc]
    rfl
  | cons c cs ih =>
    have hstep : resolve st.groups (st.text ++ c :: cs) =
        match st.step c cs with
        | .error e => .error e
        | .ok st' => resolve st'.groups (st'.text ++ cs) := by
      by_cases hclose : c = ')'
      · subst hclose
        exact resolve_close hc ht
      · cases hs : st.step c cs with
        | error e => simp [step, hclose] at hs; split at hs <;> cases hs
        | ok st' =>
          obtain ⟨hg, htext⟩ := step_text hclose hs
          simp only [hg, htext]
    rw [hstep, run_cons]
    cases hs : st.step c cs with
    | error e => rfl
    | ok st' => exact ih (step_clean hc hs) (step_trimmed hs ht)

/-! ## Whole texts -/

/-- A text is read as a scan of the trimmed text runs. -/
theorem ofText_eq_run (t : String) : Condition.ofText t = start.run (Text.trim t.toList) :=
  resolve_eq_run start_clean (Text.trim t.toList) (Text.trim_trim _)

/-- A scan that succeeds: no group is open at the end, and the last group is the root. -/
theorem run_eq_ok {st : Scan} {cs : List Char} {c : Condition} (h : st.run cs = .ok c) :
    ∃ last g, st.advance cs [] = .ok last ∧ last.outer = [] ∧
      Group.ofChars last.groups.length last.current = .ok g ∧
      c = ⟨last.groups ++ [g], last.groups.length⟩ := by
  unfold run at h
  cases ha : st.advance cs [] with
  | error e => simp [ha] at h
  | ok last =>
    cases ho : last.outer with
    | cons below outer => simp [ha, finish, ho] at h
    | nil =>
      cases hg : Group.ofChars last.groups.length last.current with
      | error e => simp [ha, finish, ho, hg] at h
      | ok g =>
        simp only [ha, finish, ho, hg, Except.ok.injEq] at h
        exact ⟨last, g, rfl, ho, hg, h.symm⟩

/-- The group that a `)` closes gets the next index, and keeps it. -/
theorem advance_close {st last : Scan} {read rest : List Char}
    (h : st.advance (read ++ ')' :: rest) [] = .ok last) :
    ∃ st' g more, st.advance read (')' :: rest) = .ok st' ∧
      Group.ofChars st'.groups.length st'.current = .ok g ∧
      last.groups = st'.groups ++ g :: more := by
  rw [advance_append, List.append_nil] at h
  cases hr : st.advance read (')' :: rest) with
  | error e => simp [hr] at h
  | ok st' =>
    simp only [hr, advance, List.append_nil] at h
    cases hs : st'.step ')' rest with
    | error e => simp [hs] at h
    | ok st₁ =>
      simp only [hs] at h
      obtain ⟨more, hm, -⟩ := advance_groups h
      obtain ⟨hp, -⟩ | ⟨-, _, _, g, -, hg, rfl⟩ | ⟨-, hp, -⟩ := step_cases hs
      · cases hp
      · exact ⟨st', g, more, rfl, hg, by rw [hm, List.append_assoc, List.singleton_append]⟩
      · exact absurd rfl hp

/-- **Reading in rounds and reading in one pass agree** on every text, also on the error and its
text. The `)` with the number `k` closes the group with the index `k`: it is what was on top of the
stack when the scan came to that `)`. -/
theorem ofText_eq_scan (t : String) :
    Condition.ofText t = Scan.ofText t ∧
    ∀ c, Condition.ofText t = .ok c →
      c.root = (Text.trim t.toList).count ')' ∧ c.groups.length = c.root + 1 ∧
      ∀ read rest, Text.trim t.toList = read ++ ')' :: rest →
        ∃ st g, start.advance read (')' :: rest) = .ok st ∧
          Group.ofChars (read.count ')') st.current = .ok g ∧
          c.groups[read.count ')']? = some g := by
  have heq : Condition.ofText t = Scan.ofText t := ofText_eq_run t
  refine ⟨heq, fun c hc => ?_⟩
  rw [heq, ofText] at hc
  obtain ⟨last, root, ha, -, -, rfl⟩ := run_eq_ok hc
  obtain ⟨more, hmore, hcount⟩ := advance_groups ha
  rw [start, List.nil_append] at hmore
  refine ⟨by rw [hmore, hcount], by simp, fun read rest ht => ?_⟩
  rw [ht] at ha
  obtain ⟨st, g, after, hst, hg, hlast⟩ := advance_close ha
  obtain ⟨before, hb, hk⟩ := advance_groups hst
  rw [start, List.nil_append] at hb
  rw [hb, hk] at hg
  refine ⟨st, g, hst, hg, ?_⟩
  rw [hlast, hb, ← hk]
  simp

/-- The second `)` of a text closes the group with the index 1. -/
theorem ofText_eq_scan_second :
    ∃ c, Condition.ofText "((&a) | !&b) &c" = .ok c ∧ c.root = 2 ∧
      ∃ st g, start.advance "((&a) | !&b".toList ") &c".toList = .ok st ∧
        Group.ofChars 1 st.current = .ok g ∧ c.groups[1]? = some g := by
  obtain ⟨c, hc⟩ : ∃ c, Condition.ofText "((&a) | !&b) &c" = .ok c :=
    ⟨_, (ofText_eq_run _).trans rfl⟩
  obtain ⟨-, h⟩ := ofText_eq_scan "((&a) | !&b) &c"
  obtain ⟨hroot, -, hclose⟩ := h c hc
  exact ⟨c, hc, hroot, hclose "((&a) | !&b".toList " &c".toList (by decide)⟩

end Scan

end WordLogic
