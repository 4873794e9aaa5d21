import Mathlib
import WordLogic.Proofs.Condition.Wrapping

/-!
# Layout inside parentheses

Blanks behind a `(`, before a `)` and at the ends of a rule text do not matter: the text without them
describes the same condition, or shows the same fault (`ofText_spacedOut`). This holds of every text,
whether or not its parentheses fit. Blanks elsewhere do matter: a second space between two tokens is
a fault.

Two scans are compared. Blanks behind a `(` are the first to go to a new buffer, and those before a
`)` are the last before the buffer is read as a group, which trims it. So the buffers of the second
scan are those of the first behind some blanks (`Scan.Like`), at every character of the first text.
-/

namespace WordLogic

/-! ## Layout -/

/-- All characters of the text are blank. -/
def Text.Blanks (cs : List Char) : Prop := ∀ c ∈ cs, isBlank c = true

instance : DecidablePred Text.Blanks := fun cs => List.decidableBAll _ cs

/-- The second text is the first with blanks put in behind some `(` and before some `)`. -/
inductive Text.Loosened : List Char → List Char → Prop
  | nil : Loosened [] []
  | opening {blanks xs ys : List Char} (hb : Blanks blanks) (h : Loosened xs ys) :
      Loosened ('(' :: xs) ('(' :: (blanks ++ ys))
  | closing {blanks xs ys : List Char} (hb : Blanks blanks) (h : Loosened xs ys) :
      Loosened (')' :: xs) (blanks ++ ')' :: ys)
  | char {c : Char} {xs ys : List Char} (ho : c ≠ '(') (hc : c ≠ ')') (h : Loosened xs ys) :
      Loosened (c :: xs) (c :: ys)

/-- The second text is the first with blanks put in behind some `(`, before some `)` and at its
ends. -/
def Text.SpacedOut (t t' : List Char) : Prop :=
  ∃ left inner right, Blanks left ∧ Blanks right ∧ Loosened t inner ∧ t' = left ++ inner ++ right

/-- A character of both texts, with nothing put in. -/
theorem Text.Loosened.cons (c : Char) {xs ys : List Char} (h : Loosened xs ys) :
    Loosened (c :: xs) (c :: ys) := by
  by_cases ho : c = '('
  · subst ho
    exact @Loosened.opening [] xs ys nofun h
  by_cases hc : c = ')'
  · subst hc
    exact @Loosened.closing [] xs ys nofun h
  exact .char ho hc h

theorem Text.Loosened.refl (cs : List Char) : Loosened cs cs := by
  induction cs with
  | nil => exact .nil
  | cons c cs ih => exact ih.cons c

/-- The same fault, shown by the same token; or a parenthesis without a partner in both texts. -/
inductive TextError.SameKind : TextError → TextError → Prop
  | same (e : TextError) : SameKind e e
  | unpaired (text text' : String) : SameKind (.unpaired text) (.unpaired text')

/-- The same condition, or faults of the same kind. -/
inductive ReadAlike : Except TextError Condition → Except TextError Condition → Prop
  | ok (c : Condition) : ReadAlike (.ok c) (.ok c)
  | error {e e' : TextError} (h : e.SameKind e') : ReadAlike (.error e) (.error e')

theorem ReadAlike.symm {a b : Except TextError Condition} (h : ReadAlike a b) : ReadAlike b a := by
  cases h with
  | ok c => exact .ok c
  | error h =>
    cases h with
    | same => exact .error (.same _)
    | unpaired x y => exact .error (.unpaired y x)

theorem ReadAlike.trans {a b c : Except TextError Condition} (hab : ReadAlike a b)
    (hbc : ReadAlike b c) : ReadAlike a c := by
  cases hab with
  | ok _ => exact hbc
  | error h =>
    cases h with
    | same => exact hbc
    | unpaired x y =>
      cases hbc with
      | error h' =>
        cases h' with
        | same => exact .error (.unpaired x y)
        | unpaired _ z => exact .error (.unpaired x z)

theorem ReadAlike.cases {a b : Except TextError Condition} (h : ReadAlike a b) :
    (∃ c, a = .ok c ∧ b = .ok c) ∨ ∃ e e', e.SameKind e' ∧ a = .error e ∧ b = .error e' := by
  cases h with
  | ok c => exact .inl ⟨c, rfl, rfl⟩
  | error h => exact .inr ⟨_, _, h, rfl, rfl⟩

namespace Scan

open Text

/-! ## Scans of two layouts -/

/-- The second buffer is the first behind some blanks. -/
def Behind (b b' : List Char) : Prop := ∃ blanks, Blanks blanks ∧ b' = blanks ++ b

theorem Behind.append {b b' : List Char} (h : Behind b b') (cs : List Char) :
    Behind (b ++ cs) (b' ++ cs) := by
  obtain ⟨blanks, hb, rfl⟩ := h
  exact ⟨blanks, hb, by simp⟩

/-- A group is read from the second buffer, also with blanks behind it, as from the first. -/
theorem Behind.ofChars_eq {b b' blanks : List Char} (h : Behind b b') (hb : Blanks blanks)
    (available : Nat) : Group.ofChars available (b' ++ blanks) = Group.ofChars available b := by
  obtain ⟨lead, hlead, rfl⟩ := h
  rw [Group.ofChars, Group.ofChars, trim_blanks hlead hb]

/-- The scans have read the same groups, and the buffers of the second are those of the first behind
some blanks. -/
structure Like (st st' : Scan) : Prop where
  groups : st'.groups = st.groups
  outer : List.Forall₂ Behind st.outer st'.outer
  current : Behind st.current st'.current

variable {st st' : Scan}

theorem Like.char (h : st.Like st') (c : Char) :
    Like { st with current := st.current ++ [c] } { st' with current := st'.current ++ [c] } :=
  { h with current := h.current.append [c] }

/-- Both scans open a group, the second with blanks in it. -/
theorem Like.opening (h : st.Like st') {blanks : List Char} (hb : Blanks blanks) :
    Like ⟨st.groups, st.current :: st.outer, []⟩ ⟨st'.groups, st'.current :: st'.outer, blanks⟩ where
  groups := h.groups
  outer := .cons h.current h.outer
  current := ⟨blanks, hb, by simp⟩

theorem run_blanks (st : Scan) {blanks : List Char} (hb : Blanks blanks) (rest : List Char) :
    st.run (blanks ++ rest) = { st with current := st.current ++ blanks }.run rest := by
  have hadvance := (plain_of_blanks hb).advance st (rest ++ [])
  rw [run, advance_append, hadvance]
  rfl

theorem run_open (st : Scan) (rest : List Char) :
    st.run ('(' :: rest) = run ⟨st.groups, st.current :: st.outer, []⟩ rest :=
  run_cons st '(' rest

theorem run_close (st : Scan) (rest : List Char) :
    st.run (')' :: rest) =
      match st.close rest with
      | .error e => .error e
      | .ok st => st.run rest :=
  run_cons st ')' rest

theorem run_char {c : Char} (ho : c ≠ '(') (hc : c ≠ ')') (st : Scan) (rest : List Char) :
    st.run (c :: rest) = { st with current := st.current ++ [c] }.run rest := by
  rw [run_cons, step, if_neg ho, if_neg hc]

/-- At the end of a text, blanks make no difference. -/
theorem Like.finish (h : st.Like st') {blanks : List Char} (hb : Blanks blanks) :
    ReadAlike st.finish { st' with current := st'.current ++ blanks }.finish := by
  obtain ⟨groups, outer, current⟩ := st
  obtain ⟨groups', outer', current'⟩ := st'
  obtain ⟨rfl, houter, hcurrent⟩ := h
  cases houter with
  | nil =>
    simp only [Scan.finish, hcurrent.ofChars_eq hb]
    cases Group.ofChars groups'.length current with
    | error e => exact .error (.same e)
    | ok g => exact .ok _
  | cons => exact .error (.unpaired _ _)

/-- At a `)`, blanks before it make no difference: both scans blame it, or find the same fault in the
group, or go on alike. -/
theorem Like.close (h : st.Like st') {blanks : List Char} (hb : Blanks blanks)
    (rest rest' : List Char) :
    (∃ e e', e.SameKind e' ∧ st.close rest = .error e ∧
      { st' with current := st'.current ++ blanks }.close rest' = .error e') ∨
    ∃ next next', next.Like next' ∧ st.close rest = .ok next ∧
      { st' with current := st'.current ++ blanks }.close rest' = .ok next' := by
  obtain ⟨groups, outer, current⟩ := st
  obtain ⟨groups', outer', current'⟩ := st'
  obtain ⟨rfl, houter, hcurrent⟩ := h
  cases houter with
  | nil => exact .inl ⟨_, _, .unpaired _ _, rfl, rfl⟩
  | @cons below below' outer outer' hbelow houter =>
    simp only [Scan.close, hcurrent.ofChars_eq hb]
    cases Group.ofChars groups'.length current with
    | error e => exact .inl ⟨e, e, .same e, rfl, rfl⟩
    | ok g =>
      refine .inr ⟨_, _, ?_, rfl, rfl⟩
      exact ⟨rfl, houter, hbelow.append _⟩

/-- **Two layouts of a text are read alike.** The induction is on the layout: the scan of the second
text takes the blanks that were put in along with their parenthesis. -/
theorem Like.run (h : st.Like st') {xs ys : List Char} (hxy : Loosened xs ys) {right : List Char}
    (hr : Blanks right) : ReadAlike (st.run xs) (st'.run (ys ++ right)) := by
  induction hxy generalizing st st' with
  | nil =>
    have hlast := run_blanks st' hr []
    rw [List.append_nil] at hlast
    rw [List.nil_append, hlast]
    exact h.finish hr
  | opening hb _ ih =>
    rw [List.cons_append, List.append_assoc, run_open, run_open, run_blanks _ hb, List.nil_append]
    exact ih (h.opening hb)
  | @closing blanks xs ys hb _ ih =>
    rw [List.append_assoc, List.cons_append, run_blanks _ hb, run_close, run_close]
    obtain ⟨e, e', hkind, he, he'⟩ | ⟨next, next', hlike, hn, hn'⟩ :=
      h.close hb xs (ys ++ right)
    · rw [he, he']
      exact .error hkind
    · rw [hn, hn']
      exact ih hlike
  | @char c xs ys ho hc _ ih =>
    rw [List.cons_append, run_char ho hc, run_char ho hc]
    exact ih (h.char c)

/-- Blanks at the start of a text go to the first buffer. -/
theorem start_like {left : List Char} (hl : Blanks left) : start.Like ⟨[], [], left⟩ where
  groups := rfl
  outer := .nil
  current := ⟨left, hl, by simp [start]⟩

theorem run_spacedOut {t t' : List Char} (h : SpacedOut t t') :
    ReadAlike (start.run t) (start.run t') := by
  obtain ⟨left, inner, right, hl, hr, hinner, rfl⟩ := h
  rw [List.append_assoc, run_blanks _ hl]
  exact (start_like hl).run hinner hr

/-- A text is its trimmed text with blanks at the ends, so trimming makes no difference. -/
theorem run_trim (t : List Char) : ReadAlike (start.run (trim t)) (start.run t) := by
  obtain ⟨left, right, he, hl, hr⟩ := exists_trim t
  exact run_spacedOut ⟨left, trim t, right, hl, hr, .refl _, he⟩

end Scan

namespace Condition

/-- **Layout inside parentheses does not matter.** Where blanks are put in behind some `(`, before
some `)` and at the ends of a text, both texts describe the same condition, or they show the same
fault: it is shown by the same token, or both have a parenthesis without a partner. -/
theorem ofText_spacedOut {t t' : String} (h : Text.SpacedOut t.toList t'.toList) :
    (∃ c, ofText t = .ok c ∧ ofText t' = .ok c) ∨
      ∃ e e', e.SameKind e' ∧ ofText t = .error e ∧ ofText t' = .error e' := by
  have halike : ReadAlike (ofText t) (ofText t') := by
    rw [Scan.ofText_eq_run, Scan.ofText_eq_run]
    exact ((Scan.run_trim _).trans (Scan.run_spacedOut h)).trans (Scan.run_trim _).symm
  exact halike.cases

/-- Blanks of several kinds in a text that is read, and in one whose parentheses do not fit. -/
theorem ofText_spacedOut_mixed :
    (∃ c, ofText "!((&a) | &b)" = .ok c ∧ ofText "\n!( (&a\t) | &b\u2003)" = .ok c) ∧
      ∃ e e', e.SameKind e' ∧ ofText "&a)(" = .error e ∧ ofText "&a )( " = .error e' := by
  have hspace : Text.Blanks [' '] := by decide
  have htab : Text.Blanks ['\t'] := by decide
  have hwide : Text.Blanks ['\u2003'] := by decide
  constructor
  · have ht : "!((&a) | &b)".toList =
        ['!', '(', '(', '&', 'a', ')', ' ', '|', ' ', '&', 'b', ')'] := by decide
    have ht' : "\n!( (&a\t) | &b\u2003)".toList = ['\n'] ++
        ['!', '(', ' ', '(', '&', 'a', '\t', ')', ' ', '|', ' ', '&', 'b', '\u2003', ')'] ++ [] := by
      decide
    have hspaced : Text.SpacedOut "!((&a) | &b)".toList "\n!( (&a\t) | &b\u2003)".toList := by
      rw [ht, ht']
      refine ⟨['\n'], _, [], by decide, by decide, ?_, rfl⟩
      exact .cons '!' (.opening hspace (.cons '(' (.cons '&' (.cons 'a' (.closing htab
        (.cons ' ' (.cons '|' (.cons ' ' (.cons '&' (.cons 'b' (.closing hwide .nil)))))))))))
    have hc : ofText "!((&a) | &b)" = .ok _ := (Scan.ofText_eq_run _).trans rfl
    obtain ⟨c, hc, hc'⟩ | ⟨e, -, -, he, -⟩ := ofText_spacedOut hspaced
    · exact ⟨c, hc, hc'⟩
    · rw [hc] at he
      cases he
  · have ht : "&a)(".toList = ['&', 'a', ')', '('] := by decide
    have ht' : "&a )( ".toList = [] ++ ['&', 'a', ' ', ')', '(', ' '] ++ [] := by decide
    have hspaced : Text.SpacedOut "&a)(".toList "&a )( ".toList := by
      rw [ht, ht']
      refine ⟨[], _, [], by decide, by decide, ?_, rfl⟩
      exact .cons '&' (.cons 'a' (.closing hspace (.opening hspace .nil)))
    have he : ofText "&a)(" = .error _ := (Scan.ofText_eq_run _).trans rfl
    obtain ⟨c, hc, -⟩ | hfault := ofText_spacedOut hspaced
    · rw [he] at hc
      cases hc
    · exact hfault

end Condition

end WordLogic
