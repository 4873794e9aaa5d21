import WordLogic.Text.Blank

/-!
# The first group to close

`closing` finds the group of a text that closes first: it ends at the first `)` and begins after the
last `(` before it, so it holds no other group. `eq_of_closing` says how the parts make up the text;
`closing_group`, `closing_unopened` and `closing_absent` say when each case arises.
-/

namespace WordLogic.Condition

/-- The state of the parentheses of a text. -/
inductive Closing
  /-- The text has no `)`. -/
  | absent
  /-- No `(` stands before the first `)`. -/
  | unopened
  /-- The first group to close, and the text on both sides of its parentheses. -/
  | group (before inner after : List Char)
deriving Repr, DecidableEq

/-- The part of a text before the last `(` and the part after it. -/
def splitLastOpen (cs : List Char) : Option (List Char × List Char) :=
  match cs.reverse.dropWhile (· ≠ '(') with
  | [] => none
  | _ :: before => some (before.reverse, (cs.reverse.takeWhile (· ≠ '(')).reverse)

/-- The first group to close. -/
def closing (cs : List Char) : Closing :=
  match cs.dropWhile (· ≠ ')') with
  | [] => .absent
  | _ :: after =>
    match splitLastOpen (cs.takeWhile (· ≠ ')')) with
    | none => .unopened
    | some (before, inner) => .group before inner after

/-- The parts make up the text, and there is no `(` in the second. -/
theorem eq_of_splitLastOpen {cs before inner : List Char}
    (h : splitLastOpen cs = some (before, inner)) :
    cs = before ++ '(' :: inner ∧ '(' ∉ inner := by
  unfold splitLastOpen at h
  split at h
  · cases h
  · rename_i c r hd
    cases h
    have hc : c = '(' := by simpa using Text.not_of_dropWhile_eq_cons hd
    have hsplit := List.takeWhile_append_dropWhile (p := (· ≠ '(')) (l := cs.reverse)
    rw [hd, hc] at hsplit
    constructor
    · have := congrArg List.reverse hsplit
      simpa using this.symm
    · intro hm
      have := List.all_takeWhile (p := (· ≠ '(')) (l := cs.reverse)
      rw [List.all_eq_true] at this
      simpa using this '(' (by simpa using hm)

/-- The first group to close with the text on both sides of it is the whole text. Before the group
ends there is no `)`, and in it no `(`. -/
theorem eq_of_closing {cs before inner after : List Char}
    (h : closing cs = .group before inner after) :
    cs = before ++ '(' :: inner ++ ')' :: after ∧ ')' ∉ before ∧ ')' ∉ inner ∧ '(' ∉ inner := by
  unfold closing at h
  split at h
  · cases h
  · rename_i c r hd
    split at h
    · cases h
    · rename_i before' inner' hs
      cases h
      have hc : c = ')' := by simpa using Text.not_of_dropWhile_eq_cons hd
      have hsplit := List.takeWhile_append_dropWhile (p := (· ≠ ')')) (l := cs)
      obtain ⟨he, ho⟩ := eq_of_splitLastOpen hs
      have hall := List.all_takeWhile (p := (· ≠ ')')) (l := cs)
      rw [List.all_eq_true] at hall
      rw [he] at hall hsplit
      rw [hd, hc] at hsplit
      refine ⟨hsplit.symm, fun hm => ?_, fun hm => ?_, ho⟩
      · simpa using hall ')' (by simp [hm])
      · simpa using hall ')' (by simp [hm])

/-! ## When each case arises -/

private theorem ne_of_notMem {stop : Char} {cs : List Char} (h : stop ∉ cs) :
    ∀ c ∈ cs, decide (c ≠ stop) = true := by
  intro c hc
  apply decide_eq_true
  rintro rfl
  exact h hc

/-- A text is cut at the first `stop`. -/
private theorem cut_at_stop {stop : Char} {cs : List Char} (h : stop ∉ cs) (r : List Char) :
    (cs ++ stop :: r).takeWhile (· ≠ stop) = cs ∧
      (cs ++ stop :: r).dropWhile (· ≠ stop) = stop :: r :=
  Text.span_append (ne_of_notMem h) (by simp) r

private theorem cut_without_stop {stop : Char} {cs : List Char} (h : stop ∉ cs) :
    cs.dropWhile (· ≠ stop) = [] :=
  (Text.span_eq_self (ne_of_notMem h)).2

/-- The last `(` is the one with no other behind it. -/
theorem splitLastOpen_append (before : List Char) {inner : List Char} (h : '(' ∉ inner) :
    splitLastOpen (before ++ '(' :: inner) = some (before, inner) := by
  have hr : (before ++ '(' :: inner).reverse = inner.reverse ++ '(' :: before.reverse := by simp
  obtain ⟨ht, hd⟩ := cut_at_stop (mt List.mem_reverse.1 h) before.reverse
  unfold splitLastOpen
  rw [hr, ht, hd]
  simp

/-- Without a `(` there is no last one. -/
theorem splitLastOpen_eq_none {cs : List Char} (h : '(' ∉ cs) : splitLastOpen cs = none := by
  unfold splitLastOpen
  rw [cut_without_stop (mt List.mem_reverse.1 h)]

/-- Two parentheses without another between them, and no `)` before, are the first group to
close. -/
theorem closing_group {before inner : List Char} (after : List Char) (hb : ')' ∉ before)
    (hi : ')' ∉ inner) (ho : '(' ∉ inner) :
    closing (before ++ '(' :: inner ++ ')' :: after) = .group before inner after := by
  have hc : ')' ∉ before ++ '(' :: inner := by simp [hb, hi]
  obtain ⟨ht, hd⟩ := cut_at_stop hc after
  unfold closing
  rw [ht, hd]
  simp only [splitLastOpen_append before ho]

/-- A `)` with no parenthesis before it has no partner. -/
theorem closing_unopened {cs : List Char} (after : List Char) (hc : ')' ∉ cs) (ho : '(' ∉ cs) :
    closing (cs ++ ')' :: after) = .unopened := by
  obtain ⟨ht, hd⟩ := cut_at_stop hc after
  unfold closing
  rw [ht, hd]
  simp only [splitLastOpen_eq_none ho]

/-- Without a `)` no group closes. -/
theorem closing_absent {cs : List Char} (h : ')' ∉ cs) : closing cs = .absent := by
  unfold closing
  rw [cut_without_stop h]

end WordLogic.Condition
