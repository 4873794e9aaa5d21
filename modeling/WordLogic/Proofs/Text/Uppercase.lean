import WordLogic.Text.Casing

/-!
# Uppercase is stable

An uppercase text is its own uppercase (`upper_upper`), and only the empty text has an empty
uppercase (`upper_eq_nil_iff`). Both go back to the tables: no image in them is a character that
they map. For two runs this is seen from their ends and steps (`Run.avoids`), without going through
their code points.
-/

namespace WordLogic.Text

namespace Casing

/-- The last image of a run. -/
def Run.lastImage (r : Run) : Nat := r.image + (r.last - r.first)

/-- Some code point of the run may lie between two others, these included. -/
def Run.meets (r : Run) (low high : Nat) : Bool := r.first.ble high && low.ble r.last

/-- The run is a single code point, or takes every other one. -/
def Run.isSparse (r : Run) : Bool := r.first == r.last || r.step == 2

/-- No image of the first run is a code point of the second: the second lies before or after all of
them, or both take every other code point and never the same. -/
def Run.avoids (r q : Run) : Bool :=
  !q.meets r.image r.lastImage || (r.isSparse && q.isSparse && r.image % 2 != q.first % 2)

/-- The images of the run are code points of characters, outside `a` to `z`. -/
def Run.isSound (r : Run) : Bool :=
  (r.lastImage < 0xD800 || (0xDFFF < r.image && r.lastImage < 0x110000)) &&
    (r.lastImage < 0x61 || 0x7A < r.image)

theorem Run.meets_iff {r : Run} {low high : Nat} :
    r.meets low high = true ↔ r.first ≤ high ∧ low ≤ r.last := by
  simp [meets]

theorem Run.covers_iff {r : Run} {n : Nat} :
    r.covers n = true ↔ r.first ≤ n ∧ n ≤ r.last ∧ (n - r.first) % r.step = 0 := by
  simp [covers, and_assoc]

/-- Code points covered by a sparse run are alike modulo 2. -/
theorem Run.covers_mod_two {r : Run} {n : Nat} (hr : r.isSparse = true) (h : r.covers n = true) :
    (n - r.first) % 2 = 0 := by
  obtain ⟨h1, h2, h3⟩ := covers_iff.1 h
  simp only [isSparse, Bool.or_eq_true, beq_iff_eq] at hr
  rcases hr with hr | hr
  · omega
  · rwa [hr] at h3

theorem Run.not_covers_of_avoids {r q : Run} {n : Nat} (ha : r.avoids q = true)
    (hn : r.covers n = true) : q.covers (r.image + (n - r.first)) = false := by
  rw [Bool.eq_false_iff]
  intro hq
  obtain ⟨h1, h2, -⟩ := covers_iff.1 hn
  obtain ⟨h3, h4, -⟩ := covers_iff.1 hq
  simp only [avoids, Bool.or_eq_true, Bool.not_eq_true', Bool.and_eq_true, bne_iff_ne] at ha
  rcases ha with ha | ⟨⟨hr, hs⟩, ha⟩
  · have hm : q.meets r.image r.lastImage = true := meets_iff.2 (by unfold lastImage; omega)
    rw [ha] at hm
    cases hm
  · have h5 := covers_mod_two hr hn
    have h6 := covers_mod_two hs hq
    omega

/-! ## The tables -/

theorem runs_sound : runs.all Run.isSound = true := by decide +kernel

theorem runs_avoid_runs : (runs.all fun r => runs.all r.avoids) = true := by decide +kernel

theorem runs_avoid_expansions :
    (runs.all fun r => expansions.all fun e => !(Run.mk e.1 e.1 1 0).meets r.image r.lastImage) =
      true := by
  decide +kernel

theorem ascii_table :
    ((List.range 0x80).all fun n =>
      ((upperChar (Char.ofNat n)).all fun d => upperChar d == [d]) &&
        ((0x61 ≤ n && n ≤ 0x7A) || upperChar (Char.ofNat n) == [Char.ofNat n])) = true := by
  decide +kernel

/-- An ASCII character is mapped to one that is left alone, and only a small letter is mapped. -/
theorem ascii_fixed {n : Nat} (h : n < 0x80) :
    (∀ d ∈ upperChar (Char.ofNat n), upperChar d = [d]) ∧
      (n < 0x61 ∨ 0x7A < n → upperChar (Char.ofNat n) = [Char.ofNat n]) := by
  have hn := List.all_eq_true.1 ascii_table n (List.mem_range.2 h)
  simp only [Bool.and_eq_true, Bool.or_eq_true, List.all_eq_true, beq_iff_eq,
    decide_eq_true_eq] at hn
  refine ⟨hn.1, fun hletter => ?_⟩
  rcases hn.2 with hsmall | hfixed
  · omega
  · exact hfixed

/-- The images of an expansion are characters that the tables leave alone. -/
theorem expansions_fixed :
    (expansions.all fun e => e.2 != [] &&
      e.2.all fun n => upperChar (Char.ofNat n) == [Char.ofNat n]) = true := by
  decide +kernel

end Casing

open Casing

/-! ## Characters -/

/-- What uppercase does to a character: ASCII has a rule, then come the expansions, then the runs,
and what is in no table is left alone. -/
theorem upperChar_cases (c : Char) :
    (c.toNat < 0x80 ∧ upperChar c = [c.toUpper]) ∨
    (∃ e ∈ expansions, upperChar c = e.2.map Char.ofNat) ∨
    (∃ r ∈ runs, r.covers c.toNat = true ∧
      upperChar c = [Char.ofNat (r.image + (c.toNat - r.first))]) ∨
    upperChar c = [c] := by
  by_cases ha : c.toNat < 0x80
  · exact .inl ⟨ha, by rw [upperChar, if_pos ha]⟩
  unfold upperChar
  rw [if_neg ha]
  cases hl : expansions.lookup c.toNat with
  | some images =>
    obtain ⟨l₁, l₂, he, -⟩ := List.lookup_eq_some_iff.1 hl
    exact .inr (.inl ⟨(c.toNat, images), by simp [he], rfl⟩)
  | none =>
    cases hr : runs.find? (·.covers c.toNat) with
    | some r =>
      exact .inr (.inr (.inl ⟨r, List.mem_of_find?_eq_some hr,
        by simpa using List.find?_some hr, rfl⟩))
    | none => exact .inr (.inr (.inr rfl))

/-- A character in no table is left alone. -/
theorem upperChar_eq_self {c : Char} (ha : 0x80 ≤ c.toNat) (he : ∀ e ∈ expansions, e.1 ≠ c.toNat)
    (hr : ∀ r ∈ runs, r.covers c.toNat = false) : upperChar c = [c] := by
  have hl : expansions.lookup c.toNat = none :=
    List.lookup_eq_none_iff.2 fun e h => bne_iff_ne.2 (Ne.symm (he e h))
  have hf : runs.find? (·.covers c.toNat) = none :=
    List.find?_eq_none.2 fun r h => by simp [hr r h]
  rw [upperChar, if_neg (by omega), hl, hf]

theorem toNat_ofNat {n : Nat} (h : n < 0xD800 ∨ 0xDFFF < n ∧ n < 0x110000) :
    (Char.ofNat n).toNat = n := by
  rw [Char.ofNat, dif_pos h]
  rfl

/-- An image of a run is left alone. -/
theorem upperChar_image {r : Run} {n : Nat} (hr : r ∈ runs) (hn : r.covers n = true) :
    upperChar (Char.ofNat (r.image + (n - r.first))) =
      [Char.ofNat (r.image + (n - r.first))] := by
  obtain ⟨h1, h2, -⟩ := Run.covers_iff.1 hn
  have hs := List.all_eq_true.1 runs_sound r hr
  simp only [Run.isSound, Bool.and_eq_true, Bool.or_eq_true, decide_eq_true_eq] at hs
  have hlast : r.image + (n - r.first) ≤ r.lastImage := by unfold Run.lastImage; omega
  have hval : (Char.ofNat (r.image + (n - r.first))).toNat = r.image + (n - r.first) :=
    toNat_ofNat (by omega)
  by_cases ha : r.image + (n - r.first) < 0x80
  · exact (ascii_fixed ha).2 (by omega)
  refine upperChar_eq_self (by omega) ?_ ?_
  · intro e he heq
    have hmeets := List.all_eq_true.1 (List.all_eq_true.1 runs_avoid_expansions r hr) e he
    rw [Bool.not_eq_true', Bool.eq_false_iff, ne_eq, Run.meets_iff] at hmeets
    rw [hval] at heq
    exact hmeets (by simp only; omega)
  · intro q hq
    have havoids := List.all_eq_true.1 (List.all_eq_true.1 runs_avoid_runs r hr) q hq
    rw [hval]
    exact Run.not_covers_of_avoids havoids hn

/-- The uppercase of a character is left alone. -/
theorem upperChar_fixed {c d : Char} (h : d ∈ upperChar c) : upperChar d = [d] := by
  rcases upperChar_cases c with ⟨ha, -⟩ | ⟨e, he, hc⟩ | ⟨r, hr, hn, hc⟩ | hc
  · exact (ascii_fixed ha).1 d (by rwa [Char.ofNat_toNat])
  · have hf := List.all_eq_true.1 expansions_fixed e he
    simp only [Bool.and_eq_true, List.all_eq_true, beq_iff_eq] at hf
    rw [hc, List.mem_map] at h
    obtain ⟨n, hn, rfl⟩ := h
    exact hf.2 n hn
  · rw [hc, List.mem_singleton] at h
    rw [h, upperChar_image hr hn]
  · rw [hc, List.mem_singleton] at h
    rw [h, hc]

/-- A character has an uppercase. -/
theorem upperChar_ne_nil (c : Char) : upperChar c ≠ [] := by
  rcases upperChar_cases c with ⟨-, hc⟩ | ⟨e, he, hc⟩ | ⟨r, hr, hn, hc⟩ | hc
  · simp [hc]
  · have hf := List.all_eq_true.1 expansions_fixed e he
    simp only [Bool.and_eq_true, bne_iff_ne] at hf
    rw [hc]
    simpa using hf.1
  · simp [hc]
  · simp [hc]

/-! ## Texts -/

/-- A text of characters that are left alone is left alone. -/
theorem upper_eq_self {cs : List Char} (h : ∀ c ∈ cs, upperChar c = [c]) : upper cs = cs := by
  induction cs with
  | nil => rfl
  | cons c cs ih =>
    rw [List.forall_mem_cons] at h
    simp only [upper, List.flatMap_cons, h.1] at ih ⊢
    rw [ih h.2, List.singleton_append]

/-- **Uppercase is stable.** -/
theorem upper_upper (cs : List Char) : upper (upper cs) = upper cs := by
  apply upper_eq_self
  intro d hd
  obtain ⟨c, -, hc⟩ := List.mem_flatMap.1 hd
  exact upperChar_fixed hc

/-- Only the empty text has an empty uppercase. -/
theorem upper_eq_nil_iff {cs : List Char} : upper cs = [] ↔ cs = [] := by
  cases cs with
  | nil => simp [upper]
  | cons c cs => simp [upper, upperChar_ne_nil]

/-- The uppercase of a string is stable. -/
theorem uppercase_uppercase (s : String) : uppercase (uppercase s) = uppercase s := by
  simp only [uppercase, String.toList_ofList, upper_upper]

/-- Only the empty string has an empty uppercase. -/
theorem uppercase_ne_empty {cs : List Char} (h : cs ≠ []) : uppercase (String.ofList cs) ≠ "" := by
  intro he
  have hlist := congrArg String.toList he
  simp only [uppercase, String.toList_ofList, String.toList_empty] at hlist
  exact h (upper_eq_nil_iff.1 hlist)

end WordLogic.Text
