import WordLogic.Condition
import WordLogic.Condition.Closing
import WordLogic.Group.Reading

/-!
# Reading a condition

`Condition.ofText` reads a rule text. The first group to close is read and a reference `#k` takes
its place, where `k` counts the groups read before; this goes on until no `)` is left, and what
remains is the root. References that the text itself contains are read in the same way, so they can
name any group that has closed before. The text is trimmed each time.
-/

namespace WordLogic.Condition

/-- The text of a reference to group `k`. -/
def reference (k : Nat) : List Char := '#' :: Nat.toDigits 10 k

/-- A reference has no parenthesis in it. -/
theorem count_reference (k : Nat) : (reference k).count ')' = 0 := by
  rw [List.count_eq_zero]
  intro h
  rcases List.mem_cons.1 h with h | h
  · cases h
  · exact absurd (Nat.isDigit_of_mem_toDigits (by decide) (by decide) h) (by decide)

/-- A text in which a reference has taken the place of a group. -/
def replaced (before : List Char) (k : Nat) (after : List Char) : List Char :=
  Text.trim (before ++ reference k ++ after)

/-- Putting a reference in the place of the first group to close leaves fewer `)`. -/
theorem count_replaced_lt {text before inner after : List Char}
    (h : closing text = .group before inner after) (k : Nat) :
    (replaced before k after).count ')' < text.count ')' := by
  obtain ⟨rfl, hb, hi, -⟩ := eq_of_closing h
  have := Text.count_trim_le (before ++ reference k ++ after) ')'
  simp only [replaced, List.count_append, List.count_cons, count_reference,
    List.count_eq_zero.2 hb, List.count_eq_zero.2 hi] at this ⊢
  simp only [beq_self_eq_true, if_true]
  omega

/-- Reads what is left of a text when references have taken the place of `groups`. -/
def resolve (groups : List Group) (text : List Char) : Except TextError Condition :=
  match _h : closing text with
  | .unopened => .error (.unpaired (String.ofList text))
  | .absent =>
    if '(' ∈ text then .error (.unpaired (String.ofList text))
    else match Group.ofChars groups.length text with
      | .error e => .error e
      | .ok g => .ok ⟨groups ++ [g], groups.length⟩
  | .group before inner after =>
    match Group.ofChars groups.length inner with
    | .error e => .error e
    | .ok g => resolve (groups ++ [g]) (replaced before groups.length after)
termination_by text.count ')'
decreasing_by exact count_replaced_lt ‹_› _

/-- Without a `)`, and with no group open, the text is the root. -/
theorem resolve_root (groups : List Group) {text : List Char} (h : closing text = .absent)
    (ho : '(' ∉ text) :
    resolve groups text =
      match Group.ofChars groups.length text with
      | .error e => .error e
      | .ok g => .ok ⟨groups ++ [g], groups.length⟩ := by
  rw [resolve]
  split <;> simp_all

/-- Without a `)`, a `(` has no partner. -/
theorem resolve_open (groups : List Group) {text : List Char} (h : closing text = .absent)
    (ho : '(' ∈ text) : resolve groups text = .error (.unpaired (String.ofList text)) := by
  rw [resolve]
  split <;> simp_all

/-- The first `)` has no partner. -/
theorem resolve_unopened (groups : List Group) {text : List Char} (h : closing text = .unopened) :
    resolve groups text = .error (.unpaired (String.ofList text)) := by
  rw [resolve]
  split <;> simp_all

/-- The first group to close is read, and a reference takes its place. -/
theorem resolve_group (groups : List Group) {text before inner after : List Char}
    (h : closing text = .group before inner after) :
    resolve groups text =
      match Group.ofChars groups.length inner with
      | .error e => .error e
      | .ok g => resolve (groups ++ [g]) (replaced before groups.length after) := by
  rw [resolve]
  split <;> simp_all

/-- The condition that a rule text describes. Blanks at its ends do not count. -/
def ofChars (text : List Char) : Except TextError Condition := resolve [] (Text.trim text)

/-- The condition that a rule text describes. -/
def ofText (text : String) : Except TextError Condition := ofChars text.toList

end WordLogic.Condition
