/-!
# Segments

`segments sep` cuts a text at every occurrence of a separator. Between two neighbouring separators
and at the ends there is an empty segment, so there is always one segment more than there are
separators (`length_segments`), and joining the segments gives the text back (`join_segments`).
Pieces without a separator are the segments of the text that joins them (`segments_join`).
-/

namespace WordLogic.Text

/-- The pieces of a text between the occurrences of `sep`. -/
def segments (sep : Char) : List Char → List (List Char)
  | [] => [[]]
  | c :: cs => if c = sep then [] :: segments sep cs else (segments sep cs).modifyHead (c :: ·)

/-- The pieces put together with `sep` between neighbours. -/
def joinSegments (sep : Char) (pieces : List (List Char)) : List Char := [sep].intercalate pieces

/-- There is one segment more than there are separators. -/
theorem length_segments (sep : Char) (cs : List Char) :
    (segments sep cs).length = cs.count sep + 1 := by
  induction cs with
  | nil => rfl
  | cons c cs ih =>
    by_cases h : c = sep
    · simp [segments, h, ih]
    · simp [segments, h, ih]

/-- A text has at least one segment. -/
theorem segments_ne_nil (sep : Char) (cs : List Char) : segments sep cs ≠ [] := by
  intro h
  have := length_segments sep cs
  simp [h] at this

/-- No segment contains the separator. -/
theorem not_mem_of_mem_segments {sep : Char} {cs s : List Char} (h : s ∈ segments sep cs) :
    sep ∉ s := by
  induction cs generalizing s with
  | nil => simp_all [segments]
  | cons c cs ih =>
    by_cases hc : c = sep
    · simp only [segments, hc, if_true, List.mem_cons] at h
      rcases h with rfl | h
      · simp
      · exact ih h
    · simp only [segments, hc, if_false] at h
      cases hs : segments sep cs with
      | nil => exact absurd hs (segments_ne_nil sep cs)
      | cons x xs =>
        rw [hs] at ih h
        simp only [List.modifyHead_cons, List.mem_cons] at h
        rcases h with rfl | h
        · have := ih (List.mem_cons_self ..)
          simp only [List.mem_cons, not_or]
          exact ⟨fun e => hc e.symm, this⟩
        · exact ih (List.mem_cons_of_mem _ h)

/-- The segments with the separator between neighbours are the text. -/
theorem join_segments (sep : Char) (cs : List Char) : joinSegments sep (segments sep cs) = cs := by
  unfold joinSegments
  induction cs with
  | nil => rfl
  | cons c cs ih =>
    by_cases h : c = sep
    · cases hs : segments sep cs with
      | nil => exact absurd hs (segments_ne_nil sep cs)
      | cons x xs =>
        rw [hs] at ih
        simp [segments, h, hs, List.intercalate_cons_cons, ih]
    · cases hs : segments sep cs with
      | nil => exact absurd hs (segments_ne_nil sep cs)
      | cons x xs =>
        rw [hs] at ih
        cases xs with
        | nil => simp_all [segments]
        | cons y ys => simp_all [segments, List.intercalate_cons_cons]

/-- The text before the first separator is the first segment. -/
theorem segments_append {sep : Char} {cs : List Char} (h : sep ∉ cs) (r : List Char) :
    segments sep (cs ++ sep :: r) = cs :: segments sep r := by
  induction cs with
  | nil => simp [segments]
  | cons c cs ih =>
    obtain ⟨hc, hcs⟩ := not_or.1 (mt List.mem_cons.2 h)
    rw [List.cons_append, segments, if_neg (Ne.symm hc), ih hcs, List.modifyHead_cons]

/-- A text without a separator is its only segment. -/
theorem segments_eq_singleton {sep : Char} {cs : List Char} (h : sep ∉ cs) :
    segments sep cs = [cs] := by
  induction cs with
  | nil => rfl
  | cons c cs ih =>
    obtain ⟨hc, hcs⟩ := not_or.1 (mt List.mem_cons.2 h)
    rw [segments, if_neg (Ne.symm hc), ih hcs, List.modifyHead_cons]

/-- Pieces without a separator are the segments of the text that joins them. -/
theorem segments_join {sep : Char} {pieces : List (List Char)} (hne : pieces ≠ [])
    (h : ∀ piece ∈ pieces, sep ∉ piece) : segments sep (joinSegments sep pieces) = pieces := by
  unfold joinSegments
  induction pieces with
  | nil => exact absurd rfl hne
  | cons piece pieces ih =>
    obtain ⟨hp, hps⟩ := List.forall_mem_cons.1 h
    cases pieces with
    | nil => rw [List.intercalate_singleton, segments_eq_singleton hp]
    | cons next pieces =>
      rw [List.intercalate_cons_cons, List.append_assoc, List.singleton_append,
        segments_append hp, ih (List.cons_ne_nil _ _) hps]

/-- A character of the joined text is a separator or one of a piece. -/
theorem mem_joinSegments {sep c : Char} {pieces : List (List Char)}
    (h : c ∈ joinSegments sep pieces) : c = sep ∨ ∃ piece ∈ pieces, c ∈ piece := by
  unfold joinSegments at h
  induction pieces with
  | nil => cases h
  | cons piece pieces ih =>
    cases pieces with
    | nil =>
      rw [List.intercalate_singleton] at h
      exact .inr ⟨piece, List.mem_cons_self, h⟩
    | cons next pieces =>
      rw [List.intercalate_cons_cons, List.mem_append, List.mem_append, List.mem_singleton] at h
      rcases h with (h | h) | h
      · exact .inr ⟨piece, List.mem_cons_self, h⟩
      · exact .inl h
      · rcases ih h with h | ⟨p, hp, h⟩
        · exact .inl h
        · exact .inr ⟨p, List.mem_cons_of_mem _ hp, h⟩

/-- Two rows of pieces are joined by one more separator. -/
theorem joinSegments_append {sep : Char} {xs ys : List (List Char)} (hx : xs ≠ []) (hy : ys ≠ []) :
    joinSegments sep (xs ++ ys) = joinSegments sep xs ++ sep :: joinSegments sep ys := by
  unfold joinSegments
  induction xs with
  | nil => exact absurd rfl hx
  | cons x xs ih =>
    cases xs with
    | nil =>
      rw [List.singleton_append, List.intercalate_cons_of_ne_nil hy, List.intercalate_singleton,
        List.append_assoc, List.singleton_append]
    | cons x' xs =>
      rw [List.cons_append, List.cons_append, List.intercalate_cons_cons, ← List.cons_append,
        ih (List.cons_ne_nil _ _), List.intercalate_cons_cons]
      simp

end WordLogic.Text
