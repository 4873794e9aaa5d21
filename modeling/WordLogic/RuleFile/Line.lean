/-!
# Lines of a rule file

The smallest pieces of a rule file: blanks inside a line and between lines, the rest of a line,
comments, and whole numbers. Each reader takes the characters that are left and says what is left
after it; the lemmas bound the latter by the former.
-/

namespace WordLogic.RuleFile

/-- A blank inside a line: a space or a tab. -/
def isSpace (c : Char) : Bool := c == ' ' || c == '\t'

/-- A blank between rules: a space, a tab, a form feed, or a part of a line ending. -/
def isGap (c : Char) : Bool := c == ' ' || c == '\t' || c == '\n' || c == '\r' || c == '\x0c'

/-- What follows the blanks at the start. -/
def skipSpaces (cs : List Char) : List Char := cs.dropWhile isSpace

/-- What follows the blanks at the start, if there is at least one. -/
def skipSpaces? : List Char → Option (List Char)
  | [] => none
  | c :: cs => if isSpace c then some (skipSpaces cs) else none

/-- Skipping adds nothing. -/
theorem length_skipSpaces (cs : List Char) : (skipSpaces cs).length ≤ cs.length :=
  (List.dropWhile_sublist _).length_le

/-- Something is skipped. -/
theorem length_skipSpaces? {cs r : List Char} (h : skipSpaces? cs = some r) :
    r.length < cs.length := by
  cases cs with
  | nil => simp [skipSpaces?] at h
  | cons c cs =>
    simp only [skipSpaces?] at h
    split at h
    · cases h
      exact Nat.lt_succ_of_le (length_skipSpaces cs)
    · cases h

/-- A character that can end a line. -/
def isLineEnd (c : Char) : Bool := c == '\n' || c == '\r'

/-- The rest of the line and what follows it, which begins with a line ending, `\n` or `\r\n`, or is
empty. A `\r` without `\n` is no line ending: it is refused, together with what follows it. -/
def restOfLine (cs : List Char) : Except (List Char) (List Char × List Char) :=
  match cs.dropWhile (!isLineEnd ·) with
  | '\r' :: '\n' :: r => .ok (cs.takeWhile (!isLineEnd ·), '\r' :: '\n' :: r)
  | '\r' :: r => .error ('\r' :: r)
  | r => .ok (cs.takeWhile (!isLineEnd ·), r)

/-- The rest of the line is not longer than what it was taken from. -/
theorem length_restOfLine {cs line rest : List Char} (h : restOfLine cs = .ok (line, rest)) :
    rest.length ≤ cs.length := by
  have hd : (cs.dropWhile (!isLineEnd ·)).length ≤ cs.length := (List.dropWhile_sublist _).length_le
  unfold restOfLine at h
  split at h
  · rename_i r hr
    cases h
    rwa [hr] at hd
  · cases h
  · cases h
    exact hd

/-- What follows the blanks and comments at the start. A comment goes from `#` to the end of its
line; one that meets a `\r` without `\n` is no comment. -/
def skipGaps (cs : List Char) : List Char :=
  match cs with
  | [] => []
  | c :: r =>
    if isGap c then skipGaps r
    else if c = '#' then
      match _h : restOfLine r with
      | .ok (_, rest) => skipGaps rest
      | .error _ => c :: r
    else c :: r
termination_by cs.length
decreasing_by
  · simp
  · have := length_restOfLine ‹_›
    simp only [List.length_cons]
    omega

/-- Skipping adds nothing. -/
theorem length_skipGaps (cs : List Char) : (skipGaps cs).length ≤ cs.length := by
  fun_induction skipGaps cs with
  | case1 => simp
  | case2 c r _ ih => exact Nat.le_succ_of_le ih
  | case3 =>
    rename_i h _ ih
    have := length_restOfLine h
    simp only [List.length_cons]
    omega
  | case4 => simp
  | case5 => simp

/-- What follows a word at the start. -/
def skipWord? : (word : List Char) → List Char → Option (List Char)
  | [], cs => some cs
  | _ :: _, [] => none
  | w :: ws, c :: cs => if w = c then skipWord? ws cs else none

/-- The word and what follows it make up the text. -/
theorem eq_append_of_skipWord? {word cs r : List Char} (h : skipWord? word cs = some r) :
    cs = word ++ r := by
  induction word generalizing cs with
  | nil => simpa [skipWord?] using h
  | cons w ws ih =>
    cases cs with
    | nil => simp [skipWord?] at h
    | cons c cs =>
      simp only [skipWord?] at h
      split at h
      · rename_i hw
        simp [hw, ih h]
      · cases h

/-- The digits of a whole number without its sign: a single zero when there was no sign, or digits
that do not begin with zero. With the digits comes what follows them. -/
def digits? (signed : Bool) (cs : List Char) : Option (List Char × List Char) :=
  match cs with
  | '0' :: r => if signed then none else some (['0'], r)
  | cs =>
    match cs.takeWhile Char.isDigit with
    | [] => none
    | ds => some (ds, cs.dropWhile Char.isDigit)

/-- A number in 32 bits, or nothing when it is too large or too small for them. -/
def int32? (n : Int) : Option Int32 :=
  if -0x80000000 ≤ n ∧ n < 0x80000000 then some (Int32.ofInt n) else none

/-- A whole number in 32 bits with an optional sign, and what follows it. -/
def readInt32? (cs : List Char) : Option (Int32 × List Char) :=
  match cs with
  | '-' :: r => do
    let (ds, rest) ← digits? true r
    return (← int32? (-(Nat.ofDigitChars 10 ds 0 : Int)), rest)
  | '+' :: r => do
    let (ds, rest) ← digits? true r
    return (← int32? (Nat.ofDigitChars 10 ds 0), rest)
  | cs => do
    let (ds, rest) ← digits? false cs
    return (← int32? (Nat.ofDigitChars 10 ds 0), rest)

/-- Digits are taken from the start. -/
theorem length_digits? {signed : Bool} {cs ds r : List Char}
    (h : digits? signed cs = some (ds, r)) : r.length ≤ cs.length := by
  unfold digits? at h
  split at h
  · split at h
    · cases h
    · cases h
      simp
  · split at h
    · cases h
    · cases h
      exact (List.dropWhile_sublist _).length_le

/-- A number is taken from the start. -/
theorem length_readInt32? {cs r : List Char} {n : Int32} (h : readInt32? cs = some (n, r)) :
    r.length ≤ cs.length := by
  unfold readInt32? at h
  split at h <;>
  · simp only [Option.bind_eq_bind, Option.bind_eq_some_iff, Option.pure_def, Option.some.injEq,
      Prod.mk.injEq] at h
    obtain ⟨⟨ds, rest⟩, hd, _, -, -, rfl⟩ := h
    have := length_digits? hd
    simp only [List.length_cons] at this ⊢
    omega

end WordLogic.RuleFile
