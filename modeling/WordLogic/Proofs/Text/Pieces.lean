import Mathlib.Data.List.TakeWhile
import WordLogic.Proofs.Text.Marks
import WordLogic.Proofs.Text.Segments

/-!
# The piece around a part of a text

A text is trimmed and cut at its spaces. A part without blanks comes into one piece, with what
touches it on either side (`pieceAround`, `mem_segments_around`). Nothing touches the part on a side
that is clear (`Clear`).
-/

namespace WordLogic.Text

/-- Nothing touches the part beside which this stands, read from the part outward: there are only
blanks, which are trimmed, or a space comes first. -/
def Clear (beside : List Char) : Prop :=
  (∀ c ∈ beside, isBlank c = true) ∨ beside.head? = some ' '

/-- What touches the part beside which this stands, read from the part outward. -/
def touching (beside : List Char) : List Char := (trimEnd beside).takeWhile (· != ' ')

/-- A part with what touches it. -/
def pieceAround (left part right : List Char) : List Char :=
  (touching left.reverse).reverse ++ part ++ touching right

/-! ## What touches a part -/

theorem trimEnd_eq_nil_iff {cs : List Char} : trimEnd cs = [] ↔ ∀ c ∈ cs, isBlank c = true := by
  constructor
  · intro h
    obtain ⟨margin, he, hmargin⟩ := exists_trimEnd cs
    rw [h, List.nil_append] at he
    rwa [he]
  · intro h
    rw [trimEnd, (span_eq_self fun c hc => h c (List.mem_reverse.1 hc)).2, List.reverse_nil]

/-- What is trimmed at the end does not end with a blank. -/
theorem getLast?_trimEnd {cs : List Char} {c : Char} (h : (trimEnd cs).getLast? = some c) :
    isBlank c = false := by
  rw [trimEnd, List.getLast?_reverse] at h
  obtain ⟨r, hr⟩ := List.head?_eq_some_iff.1 h
  exact not_of_dropWhile_eq_cons hr

theorem touching_eq_nil_iff {beside : List Char} : touching beside = [] ↔ Clear beside := by
  obtain ⟨margin, he, hmargin⟩ := exists_trimEnd beside
  unfold touching Clear
  rw [← trimEnd_eq_nil_iff]
  cases ht : trimEnd beside with
  | nil => simp
  | cons c cs =>
    rw [ht] at he
    rw [he]
    by_cases hc : c = ' '
    · simp [hc]
    · simp [hc]

/-- A character that is no blank touches what it stands beside, and what touches it does too. -/
theorem touching_cons {c : Char} (hc : isBlank c = false) (cs : List Char) :
    touching (c :: cs) = c :: touching cs := by
  have hspace : c ≠ ' ' := by
    rintro rfl
    exact absurd hc (by decide)
  have htrim : trimEnd (c :: cs) = c :: trimEnd cs := by
    unfold trimEnd
    rw [List.reverse_cons, List.dropWhile_append]
    cases hd : cs.reverse.dropWhile isBlank with
    | nil => simp [hc]
    | cons d ds => simp
  unfold touching
  rw [htrim]
  exact List.takeWhile_cons_of_pos (bne_iff_ne.2 hspace)

theorem touching_prefix (beside : List Char) : touching beside <+: beside := by
  obtain ⟨margin, he, -⟩ := exists_trimEnd beside
  exact (List.takeWhile_prefix _).trans ⟨margin, he.symm⟩

theorem space_notMem_touching (beside : List Char) : ' ' ∉ touching beside := by
  intro h
  exact absurd (List.mem_takeWhile_imp h) (by decide)

/-! ## Pieces -/

/-- Blanks at the ends are trimmed on both sides of a part without blanks. -/
theorem trim_around (left right : List Char) {part : List Char} (hne : part ≠ [])
    (hpart : ∀ c ∈ part, isBlank c = false) :
    trim (left ++ part ++ right) = (trimEnd left.reverse).reverse ++ part ++ trimEnd right := by
  obtain ⟨before, hl, hbefore⟩ := exists_trimEnd left.reverse
  obtain ⟨after, hr, hafter⟩ := exists_trimEnd right
  have hleft : left = before.reverse ++ (trimEnd left.reverse).reverse := by
    rw [← List.reverse_append, ← hl, List.reverse_reverse]
  have hsplit : left ++ part ++ right =
      before.reverse ++ ((trimEnd left.reverse).reverse ++ part ++ trimEnd right) ++ after := by
    conv => lhs; rw [hleft, hr]
    simp only [List.append_assoc]
  rw [hsplit]
  refine trim_margins (fun c hc => hbefore c (List.mem_reverse.1 hc)) hafter (fun c hc => ?_)
    fun c hc => ?_
  · rw [List.append_assoc, List.head?_append, List.head?_append, List.head?_reverse,
      List.head?_eq_some_head hne, Option.some_or, Option.or_eq_some_iff] at hc
    rcases hc with hc | ⟨-, hc⟩
    · exact getLast?_trimEnd hc
    · cases hc
      exact hpart _ (List.head_mem hne)
  · rw [List.getLast?_append, List.getLast?_append, List.getLast?_eq_some_getLast hne,
      Option.some_or, Option.or_eq_some_iff] at hc
    rcases hc with hc | ⟨-, hc⟩
    · exact getLast?_trimEnd hc
    · cases hc
      exact hpart _ (List.getLast_mem hne)

/-- What is left of a text from a separator on begins with it, if anything is left. -/
theorem dropWhile_bne_cases (cs : List Char) (sep : Char) :
    cs.dropWhile (· != sep) = [] ∨ (cs.dropWhile (· != sep)).head? = some sep := by
  cases hd : cs.dropWhile (· != sep) with
  | nil => exact .inl rfl
  | cons c rest =>
    have := not_of_dropWhile_eq_cons hd
    rw [bne_eq_false_iff_eq] at this
    exact .inr (congrArg some this)

/-- **A part without blanks is in one piece of a text, with what touches it.** -/
theorem mem_segments_around (left right : List Char) {part : List Char} (hne : part ≠ [])
    (hpart : ∀ c ∈ part, isBlank c = false) :
    pieceAround left part right ∈ segments ' ' (trim (left ++ part ++ right)) := by
  have hspace : ' ' ∉ part := fun hm => absurd (hpart _ hm) (by decide)
  have cut (beside : List Char) : trimEnd beside =
      touching beside ++ (trimEnd beside).dropWhile (· != ' ') :=
    List.takeWhile_append_dropWhile.symm
  rw [trim_around left right hne hpart, cut left.reverse, cut right, List.reverse_append]
  have hpiece : ' ' ∉ pieceAround left part right := by
    simp [pieceAround, space_notMem_touching, hspace]
  have hfront : ((trimEnd left.reverse).dropWhile (· != ' ')).reverse = [] ∨
      ((trimEnd left.reverse).dropWhile (· != ' ')).reverse.getLast? = some ' ' := by
    rw [List.reverse_eq_nil_iff, List.getLast?_reverse]
    exact dropWhile_bne_cases _ _
  simpa only [pieceAround, List.append_assoc] using
    mem_segments_between hpiece hfront (dropWhile_bne_cases (trimEnd right) ' ')

end WordLogic.Text
