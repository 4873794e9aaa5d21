import WordLogic.Proofs.Text.Segments
import WordLogic.Proofs.Text.Uppercase
import WordLogic.Text.Blank

/-!
# Uppercase and the cuts of a text

Rule texts and sentences are cut at blanks and at the signs of rule syntax, and numbers end where the
digits do. All these characters are marks (`isMark`). Uppercase leaves a mark alone and makes none of
another character (`upperChar_of_isMark`, `isMark_of_mem_upperChar`); both are read off the tables.

So a test which only marks pass cannot tell a character from its uppercase (`CaseBlind`), and to cut
a text by such a test before or after uppercase comes to the same: `takeWhile_upper`,
`dropWhile_upper`, `trim_upper`, `segments_upper`.
-/

namespace WordLogic.Text

/-- The signs of rule syntax. -/
def signs : List Char := ['&', '|', '!', '#', '(', ')', '[', ']', '/']

/-- The character is a blank, a digit or a sign of rule syntax. -/
def isMark (c : Char) : Bool := isBlank c || c.isDigit || signs.contains c

theorem isMark_of_isBlank {c : Char} (h : isBlank c = true) : isMark c = true := by
  rw [isMark, h, Bool.true_or, Bool.true_or]

theorem isMark_of_isDigit {c : Char} (h : c.isDigit = true) : isMark c = true := by
  rw [isMark, h, Bool.or_true, Bool.true_or]

/-- A mark beyond ASCII is a blank. -/
theorem isBlank_of_isMark {c : Char} (ha : 0x80 ≤ c.toNat) (h : isMark c = true) :
    isBlank c = true := by
  have hsigns : (signs.all fun d => d.toNat.blt 0x80) = true := by decide +kernel
  simp only [isMark, Bool.or_eq_true, List.contains_iff_mem] at h
  rcases h with (h | h) | h
  · exact h
  · simp only [Char.isDigit, Bool.and_eq_true, decide_eq_true_eq] at h
    have hd : c.toNat ≤ 57 := h.2
    omega
  · have hc := List.all_eq_true.1 hsigns c h
    rw [Nat.blt_eq] at hc
    omega

/-! ## The tables -/

namespace Casing

/-- None of the code points from one to another, these included, is a blank. -/
def holdsNoBlank (low high : Nat) : Bool :=
  blankRanges.all fun b => !(low.ble b.2 && b.1.ble high)

theorem not_isBlank_of_holdsNoBlank {low high : Nat} (h : holdsNoBlank low high = true) {c : Char}
    (hlow : low ≤ c.toNat) (hhigh : c.toNat ≤ high) : isBlank c = false := by
  rw [Bool.eq_false_iff, ne_eq, isBlank, List.any_eq_true]
  rintro ⟨b, hb, hc⟩
  rw [Bool.and_eq_true, decide_eq_true_eq, decide_eq_true_eq] at hc
  have hapart := List.all_eq_true.1 h b hb
  have hmeets : (low.ble b.2 && b.1.ble high) = true := by
    rw [Bool.and_eq_true, Nat.ble_eq, Nat.ble_eq]
    omega
  rw [hmeets] at hapart
  cases hapart

/-- No code point of the run and none of its images is a blank, and an image in ASCII is a letter. -/
def Run.isApart (r : Run) : Bool :=
  holdsNoBlank r.first r.last && holdsNoBlank r.image r.lastImage &&
    ((0x80).ble r.image || ((0x41).ble r.image && r.lastImage.ble 0x5A))

theorem runs_apart : runs.all Run.isApart = true := by decide +kernel

theorem expansions_apart :
    (expansions.all fun e => holdsNoBlank e.1 e.1 && e.2.all fun n => !isMark (Char.ofNat n)) =
      true := by
  decide +kernel

theorem ascii_marks :
    ((List.range 0x80).all fun n =>
      if isMark (Char.ofNat n) then upperChar (Char.ofNat n) == [Char.ofNat n]
      else (upperChar (Char.ofNat n)).all (!isMark ·)) = true := by
  decide +kernel

theorem not_isMark_of_letter {c : Char} (hlow : 0x41 ≤ c.toNat) (hhigh : c.toNat ≤ 0x5A) :
    isMark c = false := by
  have hall : ((List.range 0x5B).all fun n => n.blt 0x41 || !isMark (Char.ofNat n)) = true := by
    decide +kernel
  have hc := List.all_eq_true.1 hall c.toNat (List.mem_range.2 (by omega))
  rw [Char.ofNat_toNat, Bool.or_eq_true, Nat.blt_eq, Bool.not_eq_true'] at hc
  exact hc.resolve_left (by omega)

end Casing

open Casing

/-! ## Marks -/

/-- **Uppercase leaves a mark alone.** -/
theorem upperChar_of_isMark {c : Char} (h : isMark c = true) : upperChar c = [c] := by
  by_cases ha : c.toNat < 0x80
  · have hc := List.all_eq_true.1 ascii_marks c.toNat (List.mem_range.2 ha)
    rw [Char.ofNat_toNat, if_pos h] at hc
    exact eq_of_beq hc
  have hblank := isBlank_of_isMark (Nat.not_lt.1 ha) h
  have outside {low high : Nat} (hclear : holdsNoBlank low high = true) :
      ¬(low ≤ c.toNat ∧ c.toNat ≤ high) := by
    rintro ⟨hlow, hhigh⟩
    rw [not_isBlank_of_holdsNoBlank hclear hlow hhigh] at hblank
    cases hblank
  refine upperChar_eq_self (Nat.not_lt.1 ha) (fun e he heq => ?_) fun r hr => ?_
  · have hapart := List.all_eq_true.1 expansions_apart e he
    rw [Bool.and_eq_true] at hapart
    exact outside hapart.1 ⟨Nat.le_of_eq heq, Nat.le_of_eq heq.symm⟩
  · have hapart := List.all_eq_true.1 runs_apart r hr
    rw [Run.isApart, Bool.and_eq_true, Bool.and_eq_true] at hapart
    rw [Bool.eq_false_iff]
    intro hcovers
    obtain ⟨h1, h2, -⟩ := Run.covers_iff.1 hcovers
    exact outside hapart.1.1 ⟨h1, h2⟩

/-- The image of a code point of a run is no mark. -/
theorem not_isMark_image {r : Run} {n : Nat} (hr : r ∈ runs) (hn : r.covers n = true) :
    isMark (Char.ofNat (r.image + (n - r.first))) = false := by
  obtain ⟨h1, h2, -⟩ := Run.covers_iff.1 hn
  have hapart := List.all_eq_true.1 runs_apart r hr
  rw [Run.isApart, Bool.and_eq_true, Bool.and_eq_true, Bool.or_eq_true, Bool.and_eq_true,
    Nat.ble_eq, Nat.ble_eq, Nat.ble_eq] at hapart
  obtain ⟨⟨-, hblank⟩, hascii⟩ := hapart
  have hsound := List.all_eq_true.1 runs_sound r hr
  simp only [Run.isSound, Bool.and_eq_true, Bool.or_eq_true, decide_eq_true_eq] at hsound
  have hlast : r.image + (n - r.first) ≤ r.lastImage := by
    unfold Run.lastImage
    omega
  have hval : (Char.ofNat (r.image + (n - r.first))).toNat = r.image + (n - r.first) :=
    toNat_ofNat (by omega)
  rcases hascii with ha | ⟨hlow, hhigh⟩
  · rw [Bool.eq_false_iff]
    intro hm
    have hclear : isBlank (Char.ofNat (r.image + (n - r.first))) = false :=
      not_isBlank_of_holdsNoBlank hblank (by omega) (by omega)
    rw [isBlank_of_isMark (by omega) hm] at hclear
    cases hclear
  · exact not_isMark_of_letter (by omega) (by omega)

/-- **Uppercase makes no mark** of another character. -/
theorem isMark_of_mem_upperChar {c d : Char} (h : d ∈ upperChar c) : isMark d = isMark c := by
  cases hc : isMark c with
  | true =>
    rw [upperChar_of_isMark hc, List.mem_singleton] at h
    rw [h, hc]
  | false =>
    rcases upperChar_cases c with ⟨ha, -⟩ | ⟨e, he, hup⟩ | ⟨r, hr, hn, hup⟩ | hup
    · have hall := List.all_eq_true.1 ascii_marks c.toNat (List.mem_range.2 ha)
      rw [Char.ofNat_toNat, if_neg (by rw [hc]; decide), List.all_eq_true] at hall
      rw [← Bool.not_eq_true']
      exact hall d h
    · have hapart := List.all_eq_true.1 expansions_apart e he
      rw [Bool.and_eq_true, List.all_eq_true] at hapart
      rw [hup, List.mem_map] at h
      obtain ⟨n, hn, rfl⟩ := h
      rw [← Bool.not_eq_true']
      exact hapart.2 n hn
    · rw [hup, List.mem_singleton] at h
      rw [h, not_isMark_image hr hn]
    · rw [hup, List.mem_singleton] at h
      rw [h, hc]

/-- A mark is in the uppercase of no other character. -/
theorem eq_of_mem_upperChar {c m : Char} (hm : isMark m = true) (h : m ∈ upperChar c) : m = c := by
  rw [isMark_of_mem_upperChar h] at hm
  rw [upperChar_of_isMark hm, List.mem_singleton] at h
  exact h

/-! ## Tests that cannot tell the case -/

/-- The test gives a character and each character of its uppercase the same answer. -/
def CaseBlind (p : Char → Bool) : Prop := ∀ c, ∀ d ∈ upperChar c, p d = p c

theorem caseBlind_of_isMark {p : Char → Bool} (h : ∀ c, p c = true → isMark c = true) :
    CaseBlind p := by
  intro c d hd
  by_cases hc : isMark c = true
  · rw [upperChar_of_isMark hc, List.mem_singleton] at hd
    rw [hd]
  · have hd' : ¬isMark d = true := by rwa [isMark_of_mem_upperChar hd]
    rw [Bool.eq_false_iff.2 (mt (h d) hd'), Bool.eq_false_iff.2 (mt (h c) hc)]

theorem CaseBlind.not {p : Char → Bool} (h : CaseBlind p) : CaseBlind (!p ·) :=
  fun c d hd => congrArg Bool.not (h c d hd)

theorem caseBlind_isBlank : CaseBlind isBlank := caseBlind_of_isMark fun _ => isMark_of_isBlank

@[simp] theorem upper_nil : upper [] = [] := rfl

theorem upper_cons (c : Char) (cs : List Char) : upper (c :: cs) = upperChar c ++ upper cs := rfl

/-- A mark stays where it is. -/
theorem upper_cons_of_isMark {c : Char} (h : isMark c = true) (cs : List Char) :
    upper (c :: cs) = c :: upper cs := by
  rw [upper_cons, upperChar_of_isMark h, List.singleton_append]

theorem mem_upper {d : Char} {cs : List Char} : d ∈ upper cs ↔ ∃ c ∈ cs, d ∈ upperChar c :=
  List.mem_flatMap

/-- Marks alone make a text that is left alone. -/
theorem upper_of_isMark {cs : List Char} (h : ∀ c ∈ cs, isMark c = true) : upper cs = cs :=
  upper_eq_self fun c hc => upperChar_of_isMark (h c hc)

/-- All of an uppercase passes a test if the text does. -/
theorem all_upper {p : Char → Bool} (hp : CaseBlind p) (cs : List Char) :
    (upper cs).all p = cs.all p := by
  rw [Bool.eq_iff_iff, List.all_eq_true, List.all_eq_true]
  constructor
  · intro h c hc
    obtain ⟨d, hd⟩ := List.exists_mem_of_ne_nil _ (upperChar_ne_nil c)
    rw [← hp c d hd]
    exact h d (mem_upper.2 ⟨c, hc, hd⟩)
  · intro h d hd
    obtain ⟨c, hc, hcd⟩ := mem_upper.1 hd
    rw [hp c d hcd]
    exact h c hc

/-! ## Cuts -/

section Cuts

variable {p : Char → Bool}

/-- A character that fails the test ends a text before and after uppercase. -/
theorem exists_upperChar_cons (hp : CaseBlind p) {c : Char} (hc : p c = false) :
    ∃ d ds, upperChar c = d :: ds ∧ p d = false := by
  obtain ⟨d, ds, he⟩ := List.exists_cons_of_ne_nil (upperChar_ne_nil c)
  exact ⟨d, ds, he, by rw [hp c d (he ▸ List.mem_cons_self), hc]⟩

theorem takeWhile_upper (hp : CaseBlind p) (cs : List Char) :
    (upper cs).takeWhile p = upper (cs.takeWhile p) := by
  induction cs with
  | nil => rfl
  | cons c cs ih =>
    rw [upper_cons]
    cases hc : p c with
    | true =>
      rw [List.takeWhile_append_of_pos fun d hd => (hp c d hd).trans hc, ih,
        List.takeWhile_cons_of_pos hc, upper_cons]
    | false =>
      obtain ⟨d, ds, he, hd⟩ := exists_upperChar_cons hp hc
      rw [he, List.cons_append, List.takeWhile_cons_of_neg (by rw [hd]; decide),
        List.takeWhile_cons_of_neg (by rw [hc]; decide)]
      rfl

theorem dropWhile_upper (hp : CaseBlind p) (cs : List Char) :
    (upper cs).dropWhile p = upper (cs.dropWhile p) := by
  induction cs with
  | nil => rfl
  | cons c cs ih =>
    rw [upper_cons]
    cases hc : p c with
    | true =>
      rw [List.dropWhile_append_of_pos fun d hd => (hp c d hd).trans hc, ih,
        List.dropWhile_cons_of_pos hc]
    | false =>
      obtain ⟨d, ds, he, hd⟩ := exists_upperChar_cons hp hc
      rw [he, List.cons_append, List.dropWhile_cons_of_neg (by rw [hd]; decide),
        List.dropWhile_cons_of_neg (by rw [hc]; decide), upper_cons, he, List.cons_append]

end Cuts

/-- What stands between two blank margins, and has no blank at its ends, is the trimmed text. -/
theorem trim_margins {left middle right : List Char} (hl : ∀ c ∈ left, isBlank c = true)
    (hr : ∀ c ∈ right, isBlank c = true) (hs : ∀ c, middle.head? = some c → isBlank c = false)
    (he : ∀ c, middle.getLast? = some c → isBlank c = false) :
    trim (left ++ middle ++ right) = middle := by
  have hend : trimEnd (middle ++ right) = middle := by
    rw [trimEnd, List.reverse_append,
      List.dropWhile_append_of_pos fun c hc => hr c (List.mem_reverse.1 hc)]
    exact trimEnd_eq_self he
  rw [trim, trimStart, List.append_assoc, List.dropWhile_append_of_pos hl]
  cases middle with
  | nil =>
    rw [List.nil_append, (span_eq_self hr).2]
    rfl
  | cons c cs =>
    rw [List.cons_append, List.dropWhile_cons_of_neg (by rw [hs c rfl]; decide)]
    exact hend

theorem head?_upper {cs : List Char} {d : Char} (h : (upper cs).head? = some d) :
    ∃ c, cs.head? = some c ∧ d ∈ upperChar c := by
  cases cs with
  | nil => cases h
  | cons c cs =>
    obtain ⟨x, xs, he⟩ := List.exists_cons_of_ne_nil (upperChar_ne_nil c)
    rw [upper_cons, he] at h
    cases h
    exact ⟨c, rfl, he ▸ List.mem_cons_self⟩

theorem getLast?_upper {cs : List Char} {d : Char} (h : (upper cs).getLast? = some d) :
    ∃ c, cs.getLast? = some c ∧ d ∈ upperChar c := by
  rcases List.eq_nil_or_concat cs with rfl | ⟨cs, c, rfl⟩
  · cases h
  · have hc : upper [c] = upperChar c := List.append_nil _
    rw [List.concat_eq_append, upper_append, hc, List.getLast?_append,
      List.getLast?_eq_some_getLast (upperChar_ne_nil c), Option.some_or] at h
    refine ⟨c, by rw [List.concat_eq_append, List.getLast?_concat], ?_⟩
    rw [← Option.some.inj h]
    exact List.getLast_mem _

/-- A text is trimmed before or after uppercase. -/
theorem trim_upper (cs : List Char) : trim (upper cs) = upper (trim cs) := by
  obtain ⟨left, right, he, hl, hr⟩ := exists_trim cs
  have hleft := upper_of_isMark fun c hc => isMark_of_isBlank (hl c hc)
  have hright := upper_of_isMark fun c hc => isMark_of_isBlank (hr c hc)
  conv => lhs; rw [he]
  rw [upper_append, upper_append, hleft, hright]
  refine trim_margins hl hr (fun d hd => ?_) fun d hd => ?_
  · obtain ⟨c, hc, hcd⟩ := head?_upper hd
    rw [caseBlind_isBlank c d hcd]
    exact head?_trim hc
  · obtain ⟨c, hc, hcd⟩ := getLast?_upper hd
    rw [caseBlind_isBlank c d hcd]
    exact getLast?_trim hc

/-- A piece without a separator goes to the first segment. -/
theorem segments_append_left {sep : Char} {xs : List Char} (h : sep ∉ xs) (cs : List Char) :
    segments sep (xs ++ cs) = (segments sep cs).modifyHead (xs ++ ·) := by
  induction xs with
  | nil =>
    rw [List.nil_append]
    cases segments sep cs <;> rfl
  | cons x xs ih =>
    obtain ⟨hx, hxs⟩ := not_or.1 (mt List.mem_cons.2 h)
    rw [List.cons_append, segments, if_neg (Ne.symm hx), ih hxs, List.modifyHead_modifyHead]
    rfl

/-- A text is cut at a mark before or after uppercase. -/
theorem segments_upper {sep : Char} (h : isMark sep = true) (cs : List Char) :
    segments sep (upper cs) = (segments sep cs).map upper := by
  induction cs with
  | nil => rfl
  | cons c cs ih =>
    by_cases hc : c = sep
    · subst hc
      rw [upper_cons_of_isMark h, segments, segments, if_pos rfl, if_pos rfl, ih]
      rfl
    · have hsep : sep ∉ upperChar c := fun hm => hc (eq_of_mem_upperChar h hm).symm
      rw [upper_cons, segments_append_left hsep, ih, segments, if_neg hc]
      cases segments sep cs with
      | nil => rfl
      | cons y ys => rfl

/-- Pieces are joined by a mark before or after uppercase. -/
theorem upper_joinSegments {sep : Char} (h : isMark sep = true) (pieces : List (List Char)) :
    upper (joinSegments sep pieces) = joinSegments sep (pieces.map upper) := by
  cases pieces with
  | nil => rfl
  | cons piece pieces =>
    rw [List.map_cons, joinSegments_cons, joinSegments_cons, upper_append]
    congr 1
    induction pieces with
    | nil => rfl
    | cons next pieces ih =>
      rw [List.flatMap_cons, upper_append, ih, upper_cons_of_isMark h, List.map_cons,
        List.flatMap_cons]

end WordLogic.Text
