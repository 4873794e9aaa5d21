/-!
# Blank characters

`isBlank` is the Unicode property White_Space, 25 code points in ten ranges. `trim` removes the
blank characters at both ends of a text and nothing else: the text is the trimmed text between two
blank margins (`exists_trim`), and a trimmed text neither begins nor ends with a blank
(`head?_trim`, `getLast?_trim`), so a second pass changes nothing (`trim_trim`).
-/

namespace WordLogic.Text

/-- The ranges of White_Space, first and last code point. -/
def blankRanges : List (Nat × Nat) :=
  [(0x09, 0x0D), (0x20, 0x20), (0x85, 0x85), (0xA0, 0xA0), (0x1680, 0x1680), (0x2000, 0x200A),
   (0x2028, 0x2029), (0x202F, 0x202F), (0x205F, 0x205F), (0x3000, 0x3000)]

/-- The character has the property White_Space. -/
def isBlank (c : Char) : Bool :=
  blankRanges.any fun r => r.1 ≤ c.toNat && c.toNat ≤ r.2

/-- The text without the blank characters at its start. -/
def trimStart (cs : List Char) : List Char := cs.dropWhile isBlank

/-- The text without the blank characters at its end. -/
def trimEnd (cs : List Char) : List Char := (cs.reverse.dropWhile isBlank).reverse

/-- The text without the blank characters at its ends. -/
def trim (cs : List Char) : List Char := trimEnd (trimStart cs)

/-- What `dropWhile` leaves begins with a character that fails the test. -/
theorem not_of_dropWhile_eq_cons {p : Char → Bool} {cs : List Char} {c : Char} {r : List Char}
    (h : cs.dropWhile p = c :: r) : p c = false := by
  induction cs with
  | nil => simp at h
  | cons x xs ih =>
    by_cases hx : p x
    · rw [List.dropWhile_cons_of_pos hx] at h
      exact ih h
    · rw [List.dropWhile_cons_of_neg hx] at h
      cases h
      simpa using hx

/-- A text is cut at the first character that fails a test. -/
theorem span_append {p : Char → Bool} {cs : List Char} (h : ∀ c ∈ cs, p c = true) {stop : Char}
    (hstop : p stop = false) (r : List Char) :
    (cs ++ stop :: r).takeWhile p = cs ∧ (cs ++ stop :: r).dropWhile p = stop :: r := by
  rw [List.takeWhile_append_of_pos h, List.dropWhile_append_of_pos h]
  simp [hstop]

/-- A text in which no character fails the test is not cut. -/
theorem span_eq_self {p : Char → Bool} {cs : List Char} (h : ∀ c ∈ cs, p c = true) :
    cs.takeWhile p = cs ∧ cs.dropWhile p = [] := by
  rw [← List.append_nil cs, List.takeWhile_append_of_pos h, List.dropWhile_append_of_pos h]
  exact ⟨rfl, rfl⟩

/-- A text whose first character is not blank keeps its start. -/
theorem trimStart_eq_self {cs : List Char} (h : ∀ c, cs.head? = some c → isBlank c = false) :
    trimStart cs = cs := by
  cases cs with
  | nil => rfl
  | cons c cs => exact List.dropWhile_cons_of_neg (by simp [h c rfl])

/-- A text whose last character is not blank keeps its end. -/
theorem trimEnd_eq_self {cs : List Char} (h : ∀ c, cs.getLast? = some c → isBlank c = false) :
    trimEnd cs = cs := by
  have : trimStart cs.reverse = cs.reverse :=
    trimStart_eq_self fun c hc => h c (by rwa [List.head?_reverse] at hc)
  simpa [trimEnd, trimStart] using congrArg List.reverse this

/-- The end that is trimmed is blank. -/
theorem exists_trimEnd (cs : List Char) :
    ∃ margin, cs = trimEnd cs ++ margin ∧ ∀ c ∈ margin, isBlank c = true := by
  refine ⟨(cs.reverse.takeWhile isBlank).reverse, ?_, fun c hc => ?_⟩
  · rw [trimEnd, ← List.reverse_append, List.takeWhile_append_dropWhile, List.reverse_reverse]
  · exact List.all_eq_true.1 List.all_takeWhile c (List.mem_reverse.1 hc)

/-- A text is the trimmed text between two blank margins. -/
theorem exists_trim (cs : List Char) :
    ∃ left right, cs = left ++ trim cs ++ right ∧ (∀ c ∈ left, isBlank c = true) ∧
      ∀ c ∈ right, isBlank c = true := by
  obtain ⟨margin, he, hm⟩ := exists_trimEnd (trimStart cs)
  refine ⟨cs.takeWhile isBlank, margin, ?_, List.all_eq_true.1 List.all_takeWhile, hm⟩
  have := List.takeWhile_append_dropWhile (p := isBlank) (l := cs)
  rw [List.append_assoc]
  unfold trim
  rw [← he]
  exact this.symm

/-- A trimmed text does not begin with a blank. -/
theorem head?_trim {cs : List Char} {c : Char} (h : (trim cs).head? = some c) :
    isBlank c = false := by
  obtain ⟨margin, he, -⟩ := exists_trimEnd (trimStart cs)
  obtain ⟨r, hr⟩ := List.head?_eq_some_iff.1 h
  change trimEnd (trimStart cs) = c :: r at hr
  rw [hr] at he
  exact not_of_dropWhile_eq_cons he

/-- A trimmed text does not end with a blank. -/
theorem getLast?_trim {cs : List Char} {c : Char} (h : (trim cs).getLast? = some c) :
    isBlank c = false := by
  rw [trim, trimEnd, List.getLast?_reverse] at h
  obtain ⟨r, hr⟩ := List.head?_eq_some_iff.1 h
  exact not_of_dropWhile_eq_cons hr

/-- Trimming adds no character. -/
theorem count_trim_le (cs : List Char) (c : Char) : (trim cs).count c ≤ cs.count c := by
  obtain ⟨left, right, he, -, -⟩ := exists_trim cs
  conv => rhs; rw [he]
  simp only [List.count_append]
  omega

/-- A text without blanks at its ends has nothing to trim. -/
theorem trim_eq_self {cs : List Char} (hs : ∀ c, cs.head? = some c → isBlank c = false)
    (he : ∀ c, cs.getLast? = some c → isBlank c = false) : trim cs = cs := by
  rw [trim, trimStart_eq_self hs]
  exact trimEnd_eq_self he

/-- A trimmed text has nothing to trim. -/
theorem trim_trim (cs : List Char) : trim (trim cs) = trim cs :=
  trim_eq_self (fun _ => head?_trim) fun _ => getLast?_trim

/-- A part of a trimmed text can be exchanged for one without blanks at its ends. -/
theorem trim_exchange {xs ys zs : List Char} {part : List Char} (hne : part ≠ [])
    (hs : ∀ c, part.head? = some c → isBlank c = false)
    (he : ∀ c, part.getLast? = some c → isBlank c = false)
    (h : trim (xs ++ ys ++ zs) = xs ++ ys ++ zs) :
    trim (xs ++ part ++ zs) = xs ++ part ++ zs := by
  refine trim_eq_self (fun c hc => ?_) fun c hc => ?_
  · cases xs with
    | nil =>
      cases part with
      | nil => exact absurd rfl hne
      | cons p ps => exact hs c hc
    | cons x xs =>
      have hh : (trim (x :: xs ++ ys ++ zs)).head? = some c := by
        rw [h]
        exact hc
      exact head?_trim hh
  · rcases List.eq_nil_or_concat zs with rfl | ⟨zs, z, rfl⟩
    · have hl := List.getLast?_eq_some_getLast hne
      rw [List.append_nil, List.getLast?_append, hl, Option.some_or] at hc
      exact he c (hl.trans hc)
    · have hl : (trim (xs ++ ys ++ zs.concat z)).getLast? = some c := by
        rw [h]
        simp only [List.concat_eq_append, List.getLast?_append, List.getLast?_singleton,
          Option.some_or] at hc ⊢
        exact hc
      exact getLast?_trim hl

end WordLogic.Text
