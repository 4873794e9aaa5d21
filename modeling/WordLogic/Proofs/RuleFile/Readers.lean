import WordLogic.Proofs.RuleFile.Grammar

/-!
# Readers of a line

What each reader of a rule file takes, in two directions: it takes what the grammar of lines
describes when something follows that cannot be part of it (`readRule_append`), and what it takes is
what the grammar describes (`readRule_eq_ok`). When reading stops, the place is in the line where it
began (`Within`).
-/

namespace WordLogic.RuleFile

/-! ## Places -/

/-- What is left of `cs` at a place in its first line. -/
def Within (cs r : List Char) : Prop := ∃ taken, cs = taken ++ r ∧ '\n' ∉ taken

theorem Within.refl (cs : List Char) : Within cs cs := ⟨[], rfl, List.not_mem_nil⟩

theorem Within.append {taken : List Char} (h : '\n' ∉ taken) (r : List Char) :
    Within (taken ++ r) r := ⟨taken, rfl, h⟩

theorem Within.trans {cs r r' : List Char} (h : Within cs r) (h' : Within r r') : Within cs r' := by
  obtain ⟨taken, rfl, ht⟩ := h
  obtain ⟨taken', rfl, ht'⟩ := h'
  exact ⟨taken ++ taken', (List.append_assoc ..).symm, by simp [ht, ht']⟩

/-- A line begins with none of the characters of a class. -/
def Avoids (p : Char → Bool) (cs : List Char) : Prop := ∀ c ∈ cs.head?, p c = false

theorem avoids_nil (p : Char → Bool) : Avoids p [] := nofun

theorem avoids_cons {p : Char → Bool} {c : Char} (h : p c = false) (cs : List Char) :
    Avoids p (c :: cs) := by
  rintro _ ⟨rfl⟩
  exact h

/-- A text is cut where a class of characters ends. -/
theorem span_of_avoids {p : Char → Bool} {cs r : List Char} (h : ∀ c ∈ cs, p c = true)
    (hr : Avoids p r) : (cs ++ r).takeWhile p = cs ∧ (cs ++ r).dropWhile p = r := by
  cases r with
  | nil =>
    rw [List.append_nil]
    exact Text.span_eq_self h
  | cons c r => exact Text.span_append h (hr c rfl) r

/-- What is left when a class of characters ends. -/
theorem avoids_dropWhile (p : Char → Bool) (cs : List Char) : Avoids p (cs.dropWhile p) := by
  intro c hc
  obtain ⟨r, hr⟩ := List.head?_eq_some_iff.1 hc
  exact Text.not_of_dropWhile_eq_cons hr

/-! ## Blanks and words -/

theorem Spaces.newline_notMem {sp : List Char} (h : Spaces sp) : '\n' ∉ sp :=
  fun hn => absurd (h _ hn) (by decide)

theorem skipSpaces_append {sp r : List Char} (h : Spaces sp) (hr : Avoids isSpace r) :
    skipSpaces (sp ++ r) = r := (span_of_avoids h hr).2

theorem skipSpaces?_append {sp r : List Char} (h : Spaces sp) (hne : sp ≠ [])
    (hr : Avoids isSpace r) : skipSpaces? (sp ++ r) = some r := by
  cases sp with
  | nil => exact absurd rfl hne
  | cons c sp =>
    obtain ⟨hc, hsp⟩ := List.forall_mem_cons.1 h
    rw [List.cons_append, skipSpaces?, if_pos hc, skipSpaces_append hsp hr]

theorem exists_spaces (cs : List Char) : ∃ sp, Spaces sp ∧ cs = sp ++ skipSpaces cs :=
  ⟨cs.takeWhile isSpace, fun _ => List.mem_takeWhile_imp, List.takeWhile_append_dropWhile.symm⟩

theorem exists_spaces? {cs r : List Char} (h : skipSpaces? cs = some r) :
    ∃ sp, Spaces sp ∧ sp ≠ [] ∧ cs = sp ++ r := by
  cases cs with
  | nil => cases h
  | cons c cs =>
    rw [skipSpaces?] at h
    split at h
    · rename_i hc
      cases h
      obtain ⟨sp, hsp, heq⟩ := exists_spaces cs
      exact ⟨c :: sp, List.forall_mem_cons.2 ⟨hc, hsp⟩, List.cons_ne_nil c sp,
        congrArg (c :: ·) heq⟩
    · cases h

theorem within_skipSpaces (cs : List Char) : Within cs (skipSpaces cs) := by
  obtain ⟨sp, hsp, heq⟩ := exists_spaces cs
  exact ⟨sp, heq, hsp.newline_notMem⟩

theorem skipWord?_append (word r : List Char) : skipWord? word (word ++ r) = some r := by
  induction word with
  | nil => rfl
  | cons w ws ih => rw [List.cons_append, skipWord?, if_pos rfl, ih]

/-! ## Numbers -/

theorem isDigit_false_of_isSpace {c : Char} (h : isSpace c = true) : c.isDigit = false := by
  simp only [isSpace, Bool.or_eq_true, beq_iff_eq] at h
  rcases h with rfl | rfl <;> rfl

theorem NonzeroLed.digits?_append {ds r : List Char} (h : NonzeroLed ds) (signed : Bool)
    (hr : Avoids Char.isDigit r) : digits? signed (ds ++ r) = some (ds, r) := by
  obtain ⟨hdigits, d, ds, rfl, hd⟩ := h
  obtain ⟨ht, hdrop⟩ := span_of_avoids hdigits hr
  unfold digits?
  split
  · rename_i heq
    cases heq
    exact absurd rfl hd
  · rw [ht, hdrop]

theorem digits?_zero (r : List Char) : digits? false ('0' :: r) = some (['0'], r) := rfl

/-- Digits that are read are a zero without a sign, or do not begin with zero. -/
theorem digits?_eq_some {signed : Bool} {cs ds r : List Char}
    (h : digits? signed cs = some (ds, r)) :
    cs = ds ++ r ∧ (signed = false ∧ ds = ['0'] ∨ NonzeroLed ds) := by
  unfold digits? at h
  split at h
  · split at h
    · cases h
    · rename_i hs
      cases h
      exact ⟨rfl, .inl ⟨by simpa using hs, rfl⟩⟩
  · rename_i hzero
    split at h
    · cases h
    · rename_i ht
      cases h
      refine ⟨List.takeWhile_append_dropWhile.symm, .inr ⟨fun _ => List.mem_takeWhile_imp, ?_⟩⟩
      cases cs with
      | nil => exact absurd rfl ht
      | cons c cs =>
        rw [List.takeWhile_cons] at ht ⊢
        split at ht
        · rename_i hc
          rw [if_pos hc]
          exact ⟨c, _, rfl, fun h0 => hzero cs (by rw [h0])⟩
        · exact absurd rfl ht

theorem int32?_toInt (n : Int32) : int32? n.toInt = some n := by
  have hlo := n.le_toInt
  have hhi := n.toInt_lt
  rw [int32?, if_pos (by omega), Int32.ofInt_toInt]

theorem int32?_eq_some {i : Int} {n : Int32} (h : int32? i = some n) : n.toInt = i := by
  unfold int32? at h
  split at h
  · cases h
    rw [Int32.toInt_ofInt_of_le] <;> omega
  · cases h

/-- A number begins with a digit or a sign. -/
theorem Numeral.exists_head {ds : List Char} {i : Int} (h : Numeral ds i) :
    ∃ c cs, ds = c :: cs ∧ (c.isDigit = true ∨ c = '+' ∨ c = '-') := by
  cases h with
  | zero => exact ⟨'0', [], rfl, .inl rfl⟩
  | unsigned h =>
    obtain ⟨hdigits, d, ds, rfl, -⟩ := h
    exact ⟨d, ds, rfl, .inl (hdigits d List.mem_cons_self)⟩
  | plus => exact ⟨'+', _, rfl, .inr (.inl rfl)⟩
  | minus => exact ⟨'-', _, rfl, .inr (.inr rfl)⟩

theorem NonzeroLed.newline_notMem {ds : List Char} (h : NonzeroLed ds) : '\n' ∉ ds :=
  fun hn => absurd (h.1 _ hn) (by decide)

theorem Numeral.newline_notMem {ds : List Char} {i : Int} (h : Numeral ds i) : '\n' ∉ ds := by
  cases h with
  | zero => decide
  | unsigned h => exact h.newline_notMem
  | plus h => simp [h.newline_notMem]
  | minus h => simp [h.newline_notMem]

theorem Numeral.avoids_isSpace {ds : List Char} {i : Int} (h : Numeral ds i) (r : List Char) :
    Avoids isSpace (ds ++ r) := by
  obtain ⟨c, cs, rfl, hc⟩ := h.exists_head
  refine avoids_cons ?_ _
  rcases hc with hc | rfl | rfl
  · cases hs : isSpace c with
    | false => rfl
    | true => rw [isDigit_false_of_isSpace hs] at hc; cases hc
  · rfl
  · rfl

theorem readInt32?_unsigned {cs ds r : List Char} {n : Int32}
    (hsign : ∀ c ∈ cs.head?, c ≠ '-' ∧ c ≠ '+') (h : digits? false cs = some (ds, r))
    (hn : int32? (Nat.ofDigitChars 10 ds 0) = some n) : readInt32? cs = some (n, r) := by
  unfold readInt32?
  split
  · exact absurd rfl (hsign _ rfl).1
  · exact absurd rfl (hsign _ rfl).2
  · simp only [Option.bind_eq_bind, Option.bind_eq_some_iff]
    exact ⟨(ds, r), h, n, hn, rfl⟩

theorem Spaces.avoids_isDigit {sp : List Char} (h : Spaces sp) {r : List Char}
    (hr : Avoids Char.isDigit r) : Avoids Char.isDigit (sp ++ r) := by
  cases sp with
  | nil => exact hr
  | cons c sp => exact avoids_cons (isDigit_false_of_isSpace (h c List.mem_cons_self)) _

/-- A number is read up to the last of its digits. -/
theorem readInt32?_append {ds r : List Char} {n : Int32} (h : Numeral ds n.toInt)
    (hr : Avoids Char.isDigit r) : readInt32? (ds ++ r) = some (n, r) := by
  generalize hn : n.toInt = i at h
  have hint : int32? i = some n := hn ▸ int32?_toInt n
  cases h with
  | zero =>
    refine readInt32?_unsigned ?_ (digits?_zero r) hint
    rintro _ ⟨rfl⟩
    decide
  | unsigned h =>
    refine readInt32?_unsigned ?_ (h.digits?_append false hr) hint
    obtain ⟨hall, d, ds, rfl, -⟩ := h
    rintro _ ⟨rfl⟩
    constructor <;>
    · rintro rfl
      exact absurd (hall _ List.mem_cons_self) (by decide)
  | plus h =>
    simp only [List.cons_append, readInt32?, Option.bind_eq_bind, Option.bind_eq_some_iff]
    exact ⟨_, h.digits?_append true hr, n, hint, rfl⟩
  | minus h =>
    simp only [List.cons_append, readInt32?, Option.bind_eq_bind, Option.bind_eq_some_iff]
    exact ⟨_, h.digits?_append true hr, n, hint, rfl⟩

/-- What is read as a number writes it. -/
theorem readInt32?_eq_some {cs r : List Char} {n : Int32} (h : readInt32? cs = some (n, r)) :
    ∃ ds, cs = ds ++ r ∧ Numeral ds n.toInt := by
  unfold readInt32? at h
  split at h <;>
  simp only [Option.bind_eq_bind, Option.bind_eq_some_iff, Option.pure_def, Option.some.injEq,
    Prod.mk.injEq] at h <;>
  obtain ⟨⟨ds, r⟩, hdigits, n, hn, rfl, rfl⟩ := h <;>
  obtain ⟨rfl, ⟨hs, hzero⟩ | hled⟩ := digits?_eq_some hdigits
  · cases hs
  · exact ⟨'-' :: ds, rfl, int32?_eq_some hn ▸ .minus hled⟩
  · cases hs
  · exact ⟨'+' :: ds, rfl, int32?_eq_some hn ▸ .plus hled⟩
  · subst hzero
    exact ⟨['0'], rfl, int32?_eq_some hn ▸ .zero⟩
  · exact ⟨ds, rfl, int32?_eq_some hn ▸ .unsigned hled⟩

/-! ## Priorities -/

theorem PriorityPart.newline_notMem {ann : List Char} {p : Int32} (h : PriorityPart ann p) :
    '\n' ∉ ann := by
  cases h with
  | absent => exact List.not_mem_nil
  | present h₁ h₂ h₃ _ hnumber h₄ =>
    simp [h₁.newline_notMem, h₂.newline_notMem, h₃.newline_notMem, h₄.newline_notMem,
      hnumber.newline_notMem]

theorem annotation?_append {sp₁ sp₂ sp₃ r : List Char} (h₁ : Spaces sp₁) (h₂ : Spaces sp₂)
    (h₃ : Spaces sp₃) (hne : sp₃ ≠ []) (hr : Avoids isSpace r) :
    annotation? (sp₁ ++ '(' :: sp₂ ++ "priority".toList ++ sp₃ ++ r) = some r := by
  have hopen : skipSpaces (sp₁ ++ '(' :: (sp₂ ++ ("priority".toList ++ (sp₃ ++ r)))) =
      '(' :: (sp₂ ++ ("priority".toList ++ (sp₃ ++ r))) :=
    skipSpaces_append h₁ (avoids_cons rfl _)
  have hword : skipSpaces (sp₂ ++ ("priority".toList ++ (sp₃ ++ r))) =
      "priority".toList ++ (sp₃ ++ r) := skipSpaces_append h₂ (avoids_cons rfl _)
  simp only [List.append_assoc, List.cons_append]
  rw [annotation?, hopen]
  simp only [hword, skipWord?_append, Option.bind_some, skipSpaces?_append h₃ hne hr]

theorem annotation?_eq_some {cs r : List Char} (h : annotation? cs = some r) :
    ∃ sp₁ sp₂ sp₃, Spaces sp₁ ∧ Spaces sp₂ ∧ Spaces sp₃ ∧ sp₃ ≠ [] ∧
      cs = sp₁ ++ '(' :: sp₂ ++ "priority".toList ++ sp₃ ++ r := by
  unfold annotation? at h
  split at h
  · rename_i r₁ hopen
    obtain ⟨r₂, hword, hr⟩ := Option.bind_eq_some_iff.1 h
    obtain ⟨sp₁, h₁, heq₁⟩ := exists_spaces cs
    obtain ⟨sp₂, h₂, heq₂⟩ := exists_spaces r₁
    obtain ⟨sp₃, h₃, hne, heq₃⟩ := exists_spaces? hr
    refine ⟨sp₁, sp₂, sp₃, h₁, h₂, h₃, hne, ?_⟩
    rw [heq₁, hopen, heq₂, eq_append_of_skipWord? hword, heq₃]
    simp only [List.append_assoc, List.cons_append]
  · cases h

/-- No annotation begins with a colon. -/
theorem annotation?_colon {sp : List Char} (h : Spaces sp) (r : List Char) :
    annotation? (sp ++ ':' :: r) = none := by
  have hcolon : skipSpaces (sp ++ ':' :: r) = ':' :: r :=
    skipSpaces_append h (avoids_cons rfl _)
  rw [annotation?, hcolon]
  rfl

/-- A priority is read up to the end of its annotation. -/
theorem readPriority_append {ann sp : List Char} {p : Int32} (h : PriorityPart ann p)
    (hsp : Spaces sp) (r : List Char) :
    readPriority (ann ++ (sp ++ ':' :: r)) = .ok (p, sp ++ ':' :: r) := by
  cases h with
  | absent => rw [List.nil_append, readPriority, annotation?_colon hsp]
  | @present sp₁ sp₂ sp₃ sp₄ number p h₁ h₂ h₃ hne hnumber h₄ =>
    have hclose : skipSpaces (sp₄ ++ ')' :: (sp ++ ':' :: r)) = ')' :: (sp ++ ':' :: r) :=
      skipSpaces_append h₄ (avoids_cons rfl _)
    have hread : readInt32? (number ++ (sp₄ ++ ')' :: (sp ++ ':' :: r))) =
        some (p, sp₄ ++ ')' :: (sp ++ ':' :: r)) :=
      readInt32?_append hnumber (h₄.avoids_isDigit (avoids_cons rfl _))
    have hann := annotation?_append h₁ h₂ h₃ hne
      (hnumber.avoids_isSpace (sp₄ ++ ')' :: (sp ++ ':' :: r)))
    simp only [List.append_assoc, List.cons_append, List.nil_append] at hann ⊢
    rw [readPriority, hann]
    simp only [hread, hclose]

/-- What is read as a priority is an annotation with it, or nothing. -/
theorem readPriority_eq_ok {cs r : List Char} {p : Int32} (h : readPriority cs = .ok (p, r)) :
    ∃ ann, cs = ann ++ r ∧ PriorityPart ann p := by
  unfold readPriority at h
  split at h
  · cases h
    exact ⟨[], rfl, .absent⟩
  rename_i r₁ hann
  split at h
  · cases h
  rename_i p r₂ hnumber
  split at h
  · rename_i r hclose
    cases h
    obtain ⟨sp₁, sp₂, sp₃, h₁, h₂, h₃, hne, heq⟩ := annotation?_eq_some hann
    obtain ⟨number, rfl, hn⟩ := readInt32?_eq_some hnumber
    obtain ⟨sp₄, h₄, heq₄⟩ := exists_spaces r₂
    refine ⟨_, ?_, .present h₁ h₂ h₃ hne hn h₄⟩
    rw [heq, heq₄, hclose]
    simp only [List.append_assoc, List.cons_append, List.nil_append]
  · cases h

theorem within_of_readPriority {cs : List Char} {e : Failure} (h : readPriority cs = .error e) :
    Within cs e.rest := by
  unfold readPriority at h
  split at h
  · cases h
  rename_i r₁ hann
  obtain ⟨sp₁, sp₂, sp₃, h₁, h₂, h₃, -, rfl⟩ := annotation?_eq_some hann
  have hstart : Within (sp₁ ++ '(' :: sp₂ ++ "priority".toList ++ sp₃ ++ r₁) r₁ := by
    apply Within.append
    simp [h₁.newline_notMem, h₂.newline_notMem, h₃.newline_notMem]
  split at h
  · cases h
    exact hstart
  rename_i p r₂ hnumber
  split at h
  · cases h
  · cases h
    obtain ⟨number, rfl, hn⟩ := readInt32?_eq_some hnumber
    exact hstart.trans ((Within.append hn.newline_notMem r₂).trans (within_skipSpaces r₂))

/-! ## Texts -/

/-- The text is empty or begins with the end of a line. -/
inductive AtLineEnd : List Char → Prop
  | finished : AtLineEnd []
  | newline (r : List Char) : AtLineEnd ('\n' :: r)
  | carriageReturn (r : List Char) : AtLineEnd ('\r' :: '\n' :: r)

theorem isLineEnd_iff {c : Char} : isLineEnd c = true ↔ c = '\n' ∨ c = '\r' := by
  simp [isLineEnd]

theorem not_isLineEnd {line : List Char} (hn : '\n' ∉ line) (hr : '\r' ∉ line) :
    ∀ c ∈ line, (!isLineEnd c) = true := by
  intro c hc
  have : ¬isLineEnd c = true := by
    rw [isLineEnd_iff]
    rintro (rfl | rfl)
    · exact hn hc
    · exact hr hc
  simpa using this

theorem notMem_takeWhile_isLineEnd {c : Char} (h : isLineEnd c = true) (cs : List Char) :
    c ∉ cs.takeWhile (!isLineEnd ·) := by
  intro hc
  have := List.mem_takeWhile_imp hc
  simp [h] at this

/-- The rest of a line goes up to its end. -/
theorem restOfLine_append {line r : List Char} (hn : '\n' ∉ line) (hr : '\r' ∉ line)
    (hend : AtLineEnd r) : restOfLine (line ++ r) = .ok (line, r) := by
  have havoids : Avoids (!isLineEnd ·) r := by
    cases hend with
    | finished => exact avoids_nil _
    | newline => exact avoids_cons rfl _
    | carriageReturn => exact avoids_cons rfl _
  obtain ⟨htake, hdrop⟩ := span_of_avoids (not_isLineEnd hn hr) havoids
  rw [restOfLine, htake, hdrop]
  cases hend <;> rfl

theorem restOfLine_eq_ok {cs line r : List Char} (h : restOfLine cs = .ok (line, r)) :
    cs = line ++ r ∧ '\n' ∉ line ∧ '\r' ∉ line ∧ AtLineEnd r := by
  have hsplit := List.takeWhile_append_dropWhile (p := (!isLineEnd ·)) (l := cs)
  have hn := notMem_takeWhile_isLineEnd (c := '\n') rfl cs
  have hr := notMem_takeWhile_isLineEnd (c := '\r') rfl cs
  unfold restOfLine at h
  split at h
  · rename_i r hdrop
    cases h
    rw [hdrop] at hsplit
    exact ⟨hsplit.symm, hn, hr, .carriageReturn r⟩
  · cases h
  · rename_i hcr
    cases h
    refine ⟨hsplit.symm, hn, hr, ?_⟩
    cases hdrop : cs.dropWhile (!isLineEnd ·) with
    | nil => exact .finished
    | cons c r =>
      have hc : isLineEnd c = true := by simpa using Text.not_of_dropWhile_eq_cons hdrop
      rcases isLineEnd_iff.1 hc with rfl | rfl
      · exact .newline r
      · exact absurd hdrop (hcr r)

theorem within_of_restOfLine {cs r : List Char} (h : restOfLine cs = .error r) :
    Within cs r := by
  have hsplit := List.takeWhile_append_dropWhile (p := (!isLineEnd ·)) (l := cs)
  unfold restOfLine at h
  split at h
  · cases h
  · rename_i hdrop
    cases h
    rw [hdrop] at hsplit
    exact ⟨_, hsplit.symm, notMem_takeWhile_isLineEnd rfl cs⟩
  · cases h

/-- A text is read up to the end of its line. -/
theorem readText_append {text r : List Char} (hn : '\n' ∉ text) (hr : '\r' ∉ text)
    (hblank : Text.trim text ≠ []) (hend : AtLineEnd r) :
    readText (text ++ r) = .ok (Text.trim text, r) := by
  rw [readText, restOfLine_append hn hr hend]
  exact if_neg hblank

theorem readText_eq_ok {cs text r : List Char} (h : readText cs = .ok (text, r)) :
    ∃ line, cs = line ++ r ∧ '\n' ∉ line ∧ '\r' ∉ line ∧ AtLineEnd r ∧
      Text.trim line = text ∧ Text.trim line ≠ [] := by
  unfold readText at h
  split at h
  · cases h
  rename_i line r hline
  split at h
  · cases h
  rename_i hblank
  cases h
  obtain ⟨hsplit, hn, hr, hend⟩ := restOfLine_eq_ok hline
  exact ⟨line, hsplit, hn, hr, hend, rfl, hblank⟩

theorem within_of_readText {cs : List Char} {e : Failure} (h : readText cs = .error e) :
    Within cs e.rest := by
  unfold readText at h
  split at h
  · rename_i r hline
    cases h
    exact within_of_restOfLine hline
  · split at h
    · cases h
      exact Within.refl cs
    · cases h

/-! ## Rules -/

/-- What may follow the identifier of a rule does not begin with a digit. -/
theorem PriorityPart.avoids_isDigit {ann sp : List Char} {p : Int32} (h : PriorityPart ann p)
    (hsp : Spaces sp) (r : List Char) : Avoids Char.isDigit (ann ++ (sp ++ ':' :: r)) := by
  cases h with
  | absent => exact hsp.avoids_isDigit (avoids_cons rfl _)
  | present h₁ =>
    simp only [List.append_assoc, List.cons_append]
    exact h₁.avoids_isDigit (avoids_cons rfl _)

theorem RuleBody.avoids_isSpace {body : List Char} {rule : Rule} (h : RuleBody body rule)
    (r : List Char) : Avoids isSpace (body ++ r) := by
  obtain ⟨hnumber⟩ := h
  simp only [List.append_assoc]
  exact hnumber.avoids_isSpace _

/-- A rule is read up to the end of its line. -/
theorem readRule_append {body r : List Char} {rule : Rule} (h : RuleBody body rule)
    (hn : '\n' ∉ body) (hend : AtLineEnd r) : readRule (body ++ r) = .ok (rule, r) := by
  obtain ⟨hnumber, hann, hsp, hr, hblank⟩ := h
  rename_i number ann sp text id priority
  have hn : '\n' ∉ text := fun h => hn (by simp [h])
  have hcolon : skipSpaces (sp ++ ':' :: (text ++ r)) = ':' :: (text ++ r) :=
    skipSpaces_append hsp (avoids_cons rfl _)
  simp only [List.append_assoc, List.cons_append]
  rw [readRule, readInt32?_append hnumber (hann.avoids_isDigit hsp _)]
  simp only [readPriority_append hann hsp, hcolon, readText_append hn hr hblank hend]

/-- What is read as a rule is a rule up to the end of its line. -/
theorem readRule_eq_ok {cs r : List Char} {rule : Rule} (h : readRule cs = .ok (rule, r)) :
    ∃ body, cs = body ++ r ∧ RuleBody body rule ∧ '\n' ∉ body ∧ AtLineEnd r := by
  unfold readRule at h
  split at h
  · cases h
  rename_i id r₁ hid
  split at h
  · cases h
  rename_i priority r₂ hpriority
  split at h
  · rename_i r₃ hcolon
    split at h
    · cases h
    rename_i text r htext
    cases h
    obtain ⟨number, rfl, hnumber⟩ := readInt32?_eq_some hid
    obtain ⟨ann, rfl, hann⟩ := readPriority_eq_ok hpriority
    obtain ⟨sp, hsp, heq⟩ := exists_spaces r₂
    obtain ⟨line, rfl, hn, hr, hend, rfl, hblank⟩ := readText_eq_ok htext
    refine ⟨_, ?_, .intro hnumber hann hsp hr hblank, ?_, hend⟩
    · rw [heq, hcolon]
      simp only [List.append_assoc, List.cons_append]
    · simp [hnumber.newline_notMem, hann.newline_notMem, hsp.newline_notMem, hn]
  · cases h

/-- When a rule cannot be read, reading stops in its line. -/
theorem within_of_readRule {cs : List Char} {e : Failure} (h : readRule cs = .error e) :
    Within cs e.rest := by
  unfold readRule at h
  split at h
  · cases h
    exact Within.refl cs
  rename_i id r₁ hid
  obtain ⟨number, rfl, hnumber⟩ := readInt32?_eq_some hid
  have hfirst := Within.append hnumber.newline_notMem r₁
  split at h
  · rename_i e hpriority
    cases h
    exact hfirst.trans (within_of_readPriority hpriority)
  rename_i priority r₂ hpriority
  obtain ⟨ann, rfl, hann⟩ := readPriority_eq_ok hpriority
  have hsecond := hfirst.trans (Within.append hann.newline_notMem r₂)
  split at h
  · rename_i r₃ hcolon
    split at h
    · rename_i e htext
      cases h
      obtain ⟨sp, hsp, heq⟩ := exists_spaces r₂
      have hthird : Within r₂ r₃ := by
        rw [heq, hcolon, ← List.singleton_append, ← List.append_assoc]
        exact Within.append (by simp [hsp.newline_notMem]) r₃
      exact hsecond.trans (hthird.trans (within_of_readText htext))
    · cases h
  · cases h
    exact hsecond.trans (within_skipSpaces r₂)

end WordLogic.RuleFile
