import Mathlib.Data.List.Basic
import WordLogic.Text.Segments

/-!
# Cuts of longer texts

What the segments of a text are when it is put together from others, how a joined text begins and
ends, and where a part of it is, if the separator is not in it.
-/

namespace WordLogic.Text

/-- The first piece, then each other piece behind a separator. -/
theorem joinSegments_cons (sep : Char) (piece : List Char) (pieces : List (List Char)) :
    joinSegments sep (piece :: pieces) = piece ++ pieces.flatMap (sep :: ·) := by
  unfold joinSegments
  induction pieces generalizing piece with
  | nil => simp
  | cons next pieces ih =>
    rw [List.intercalate_cons_cons, ih, List.flatMap_cons, List.append_assoc, List.singleton_append,
      List.cons_append]

/-- Joined rows are joined again. -/
theorem joinSegments_flatten (sep : Char) {rows : List (List (List Char))}
    (h : ∀ row ∈ rows, row ≠ []) :
    joinSegments sep (rows.map (joinSegments sep)) = joinSegments sep rows.flatten := by
  induction rows with
  | nil => rfl
  | cons row rows ih =>
    obtain ⟨hrow, hrows⟩ := List.forall_mem_cons.1 h
    cases rows with
    | nil => simp [joinSegments]
    | cons next rows =>
      have hnext : (next :: rows).flatten ≠ [] := by
        simp [hrows next List.mem_cons_self]
      rw [List.flatten_cons, joinSegments_append hrow hnext, ← ih hrows, List.map_cons,
        List.map_cons]
      simp [joinSegments, List.intercalate_cons_cons]

theorem head?_joinSegments_cons (sep : Char) {piece : List Char} (h : piece ≠ [])
    (pieces : List (List Char)) : (joinSegments sep (piece :: pieces)).head? = piece.head? := by
  rw [joinSegments_cons, List.head?_append_of_ne_nil _ h]

theorem getLast?_joinSegments_concat (sep : Char) {piece : List Char} (h : piece ≠ [])
    (pieces : List (List Char)) :
    (joinSegments sep (pieces ++ [piece])).getLast? = piece.getLast? := by
  by_cases hp : pieces = []
  · simp [hp, joinSegments]
  · have hlast : joinSegments sep [piece] = piece := List.intercalate_singleton
    rw [joinSegments_append hp (List.cons_ne_nil _ _), hlast, List.append_cons,
      List.getLast?_append_of_ne_nil _ h]

/-- Without its empty pieces, a joined text begins as before, unless it began with a separator. -/
theorem head?_join_filter {sep c : Char} {pieces : List (List Char)}
    (h : (joinSegments sep (pieces.filter (· ≠ []))).head? = some c) :
    (joinSegments sep pieces).head? = some c ∨ (joinSegments sep pieces).head? = some sep := by
  cases pieces with
  | nil => cases h
  | cons piece pieces =>
    by_cases hp : piece = []
    · subst hp
      cases pieces with
      | nil => cases h
      | cons next pieces => exact .inr (by simp [joinSegments_cons])
    · rw [List.filter_cons_of_pos (by simpa using hp), head?_joinSegments_cons sep hp] at h
      exact .inl (by rw [head?_joinSegments_cons sep hp, h])

/-- Without its empty pieces, a joined text ends as before, unless it ended with a separator. -/
theorem getLast?_join_filter {sep c : Char} {pieces : List (List Char)}
    (h : (joinSegments sep (pieces.filter (· ≠ []))).getLast? = some c) :
    (joinSegments sep pieces).getLast? = some c ∨
      (joinSegments sep pieces).getLast? = some sep := by
  rcases List.eq_nil_or_concat pieces with rfl | ⟨pieces, piece, rfl⟩
  · cases h
  rw [List.concat_eq_append] at h ⊢
  by_cases hp : piece = []
  · subst hp
    by_cases hps : pieces = []
    · subst hps
      cases h
    · refine .inr ?_
      rw [joinSegments_append hps (List.cons_ne_nil _ _)]
      simp [joinSegments]
  · have hkept : (pieces ++ [piece]).filter (· ≠ []) = pieces.filter (· ≠ []) ++ [piece] := by
      simp [hp]
    rw [hkept, getLast?_joinSegments_concat sep hp] at h
    exact .inl (by rw [getLast?_joinSegments_concat sep hp, h])

theorem mem_of_mem_segments {sep : Char} {cs piece : List Char} (h : piece ∈ segments sep cs) :
    ∀ c ∈ piece, c ∈ cs := by
  intro c hc
  rw [← join_segments sep cs]
  cases hs : segments sep cs with
  | nil => exact absurd hs (segments_ne_nil sep cs)
  | cons first pieces =>
    rw [hs] at h
    rw [joinSegments_cons, List.mem_append]
    rcases List.mem_cons.1 h with rfl | h
    · exact .inl hc
    · exact .inr (List.mem_flatMap.2 ⟨piece, h, List.mem_cons_of_mem _ hc⟩)

/-- A text is cut at a separator, whatever stands before it. -/
theorem segments_append_sep (sep : Char) (xs ys : List Char) :
    segments sep (xs ++ sep :: ys) = segments sep xs ++ segments sep ys := by
  have hx := segments_ne_nil sep xs
  have hy := segments_ne_nil sep ys
  conv => lhs; rw [← join_segments sep xs, ← join_segments sep ys]
  rw [← joinSegments_append hx hy, segments_join (List.append_ne_nil_of_left_ne_nil hx _)]
  exact List.forall_mem_append.2
    ⟨fun _ => not_mem_of_mem_segments, fun _ => not_mem_of_mem_segments⟩

/-- What stands between two separators, or between one and an end of the text, is a segment. -/
theorem mem_segments_between {sep : Char} {front piece rest : List Char} (hp : sep ∉ piece)
    (hf : front = [] ∨ front.getLast? = some sep) (hr : rest = [] ∨ rest.head? = some sep) :
    piece ∈ segments sep (front ++ piece ++ rest) := by
  have hfirst : piece ∈ segments sep (piece ++ rest) := by
    rcases hr with rfl | hr
    · rw [List.append_nil, segments_eq_singleton hp]
      exact List.mem_singleton_self _
    · obtain ⟨rest, rfl⟩ := List.head?_eq_some_iff.1 hr
      rw [segments_append hp]
      exact List.mem_cons_self
  rcases hf with rfl | hf
  · exact hfirst
  · obtain ⟨front, rfl⟩ := List.getLast?_eq_some_iff.1 hf
    rw [List.append_assoc, List.append_assoc, List.singleton_append, segments_append_sep]
    exact List.mem_append_right _ hfirst

/-- A part without the separator is on one side of it. -/
theorem infix_or_infix {α : Type} {part xs ys : List α} {sep : α} (hsep : sep ∉ part)
    (h : part <:+: xs ++ sep :: ys) : part <:+: xs ∨ part <:+: ys := by
  obtain ⟨before, after, he⟩ := h
  rcases List.append_eq_append_iff.1 he with ⟨cs, hx, -⟩ | ⟨cs, hx, hy⟩
  · exact .inl ⟨before, cs, hx.symm⟩
  cases cs with
  | nil =>
    rw [List.append_nil] at hx
    exact .inl ⟨before, [], by rw [List.append_nil, hx]⟩
  | cons c cs =>
    cases hy
    rcases List.append_eq_append_iff.1 hx with ⟨ds, -, hp⟩ | ⟨ds, -, hp⟩
    · exact absurd (hp ▸ List.mem_append_right _ List.mem_cons_self) hsep
    · cases ds with
      | nil =>
        rw [List.nil_append] at hp
        exact absurd (hp ▸ List.mem_cons_self) hsep
      | cons d ds =>
        cases hp
        exact .inr ⟨ds, after, rfl⟩

/-- A part without the separator is in one of the pieces that are joined. -/
theorem infix_of_infix_joinSegments {sep : Char} {part : List Char} {pieces : List (List Char)}
    (hne : part ≠ []) (hsep : sep ∉ part) (h : part <:+: joinSegments sep pieces) :
    ∃ piece ∈ pieces, part <:+: piece := by
  unfold joinSegments at h
  induction pieces with
  | nil => exact absurd (List.infix_nil.1 h) hne
  | cons piece pieces ih =>
    cases pieces with
    | nil =>
      rw [List.intercalate_singleton] at h
      exact ⟨piece, List.mem_cons_self, h⟩
    | cons next pieces =>
      rw [List.intercalate_cons_cons, List.append_assoc, List.singleton_append] at h
      rcases infix_or_infix hsep h with h | h
      · exact ⟨piece, List.mem_cons_self, h⟩
      · obtain ⟨piece', hm, h⟩ := ih h
        exact ⟨piece', List.mem_cons_of_mem _ hm, h⟩

end WordLogic.Text
