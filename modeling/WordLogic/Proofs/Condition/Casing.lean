import Mathlib
import WordLogic.Proofs.Condition.Scan
import WordLogic.Proofs.Condition.Truth
import WordLogic.Proofs.Condition.WellFormed
import WordLogic.Proofs.Text.Marks
import WordLogic.RuleSet.Source

/-!
# Case does not matter

A rule text and its uppercase are read alike: they describe the same condition, or show the same
fault, the fault of the second with its text in uppercase (`ofText_uppercase`). A sentence and its
uppercase have the same tokens (`Sentence.ofText_uppercase`). So texts that differ in case only get
the same answers (`answers_ignore_case`), though `ß` and `SS` are cut out of texts of different
lengths.

The proof follows the reading, one lemma a layer: characters become tokens (`Token.ofChars_upper`),
tokens a group (`Group.ofChars_upper`), and a scan of the whole text goes through states that differ
in case only (`Scan.advance_upper`).
-/

namespace WordLogic

open Text

/-! ## Faults -/

namespace TextError

/-- The fault with its text in uppercase. -/
@[simp] def upper : TextError → TextError
  | .unpaired text => .unpaired (uppercase text)
  | .badReference token => .badReference (uppercase token)
  | .badBrackets token => .badBrackets (uppercase token)
  | .unknownToken token => .unknownToken (uppercase token)
  | .noLiteral => .noLiteral

/-- The same fault, shown by texts that differ in case only. -/
inductive Alike : TextError → TextError → Prop
  | unpaired {a b : String} (h : uppercase a = uppercase b) : Alike (.unpaired a) (.unpaired b)
  | badReference {a b : String} (h : uppercase a = uppercase b) :
    Alike (.badReference a) (.badReference b)
  | badBrackets {a b : String} (h : uppercase a = uppercase b) :
    Alike (.badBrackets a) (.badBrackets b)
  | unknownToken {a b : String} (h : uppercase a = uppercase b) :
    Alike (.unknownToken a) (.unknownToken b)
  | noLiteral : Alike .noLiteral .noLiteral

theorem alike_of_upper_eq {e e' : TextError} (h : e.upper = e'.upper) : e.Alike e' := by
  cases e with
  | unpaired a =>
    cases e' with
    | unpaired b => exact .unpaired (unpaired.inj h)
    | _ => cases h
  | badReference a =>
    cases e' with
    | badReference b => exact .badReference (badReference.inj h)
    | _ => cases h
  | badBrackets a =>
    cases e' with
    | badBrackets b => exact .badBrackets (badBrackets.inj h)
    | _ => cases h
  | unknownToken a =>
    cases e' with
    | unknownToken b => exact .unknownToken (unknownToken.inj h)
    | _ => cases h
  | noLiteral =>
    cases e' with
    | noLiteral => exact .noLiteral
    | _ => cases h

end TextError

namespace Text

@[simp] theorem uppercase_ofList (cs : List Char) :
    uppercase (String.ofList cs) = String.ofList (upper cs) := by
  rw [uppercase, String.toList_ofList]

/-- The first character of an uppercase is a mark only if that of the text is this mark. -/
theorem exists_upper_cons (c : Char) (cs : List Char) :
    ∃ d ds, upper (c :: cs) = d :: ds ∧ ∀ m, isMark m = true → c ≠ m → d ≠ m := by
  obtain ⟨d, ds, he⟩ := List.exists_cons_of_ne_nil (upperChar_ne_nil c)
  have hd : d ∈ upperChar c := he ▸ List.mem_cons_self
  refine ⟨d, ds ++ upper cs, by rw [upper_cons, he, List.cons_append], ?_⟩
  rintro m hm hc rfl
  exact hc (eq_of_mem_upperChar hm hd).symm

/-- A single mark is the uppercase of itself alone. -/
theorem upper_eq_singleton_iff {m : Char} (hm : isMark m = true) {cs : List Char} :
    upper cs = [m] ↔ cs = [m] := by
  constructor
  · intro h
    cases cs with
    | nil => cases h
    | cons c cs =>
      by_cases hc : c = m
      · subst hc
        rw [upper_cons_of_isMark hm] at h
        rw [upper_eq_nil_iff.1 (List.cons.inj h).2]
      · obtain ⟨d, ds, he, hne⟩ := exists_upper_cons c cs
        rw [he] at h
        exact absurd (List.cons.inj h).1 (hne m hm hc)
  · rintro rfl
    exact upper_of_isMark (List.forall_mem_singleton.2 hm)

end Text

/-! ## Tokens -/

namespace Token

/-- The token with its words in uppercase. -/
@[simp] def upper : Token → Token
  | .bar => .bar
  | .group k negated => .group k negated
  | .word w negated => .word (Text.upper w) negated
  | .expansion base endings negated =>
    .expansion (Text.upper base) (endings.map Text.upper) negated

theorem caseBlind_notBracket : CaseBlind (!isBracket ·) := by
  refine CaseBlind.not (caseBlind_of_isMark fun c hc => ?_)
  rw [isBracket, Bool.or_eq_true, beq_iff_eq, beq_iff_eq] at hc
  rcases hc with rfl | rfl <;> decide

/-- A number is made of marks, and what is no number does not become one. -/
theorem index?_upper (cs : List Char) : index? (Text.upper cs) = index? cs := by
  have hdigits : (Text.upper cs).all Char.isDigit = cs.all Char.isDigit :=
    all_upper (caseBlind_of_isMark fun _ => isMark_of_isDigit) cs
  by_cases hd : cs.all Char.isDigit = true
  · rw [upper_of_isMark fun c hc => isMark_of_isDigit (List.all_eq_true.1 hd c hc)]
  · unfold index?
    rw [hdigits, if_neg fun h => hd h.2.1, if_neg fun h => hd h.2.1]

theorem endings?_of_ne {c : Char} (h : c ≠ '[') (cs : List Char) : endings? (c :: cs) = none := by
  unfold endings?
  split
  · rename_i he
    exact absurd (List.cons.inj he).1 h
  · rfl

theorem endings?_upper (cs : List Char) :
    endings? (Text.upper cs) = (endings? cs).map (List.map Text.upper) := by
  cases cs with
  | nil => rfl
  | cons c cs =>
    by_cases hc : c = '['
    · subst hc
      have hrest : (Text.upper cs).dropWhile (!isBracket ·) = [']'] ↔
          cs.dropWhile (!isBracket ·) = [']'] := by
        rw [dropWhile_upper caseBlind_notBracket, upper_eq_singleton_iff (by decide)]
      have hnil (endings : List (List Char)) : [] ∈ endings.map Text.upper ↔ [] ∈ endings := by
        simp [upper_eq_nil_iff]
      rw [upper_cons_of_isMark (by decide), endings?, endings?]
      have hslash : isMark '/' = true := by decide
      simp only [takeWhile_upper caseBlind_notBracket, segments_upper hslash, hrest, hnil]
      split <;> rfl
    · obtain ⟨d, ds, he, hne⟩ := exists_upper_cons c cs
      rw [he, endings?_of_ne hc, endings?_of_ne (hne '[' (by decide) hc)]
      rfl

theorem word?_upper (cs : List Char) (negated : Bool) :
    word? (Text.upper cs) negated = (word? cs negated).map upper := by
  unfold word?
  rw [takeWhile_upper caseBlind_notBracket, dropWhile_upper caseBlind_notBracket]
  cases cs.takeWhile (!isBracket ·) with
  | nil => rfl
  | cons b bs =>
    -- the uppercase may be longer, but it is not empty either
    obtain ⟨d, ds, hbase, -⟩ := exists_upper_cons b bs
    cases cs.dropWhile (!isBracket ·) with
    | nil => simp only [hbase, Option.map_some, upper, upper_nil]
    | cons r rs =>
      obtain ⟨d', ds', hrest, -⟩ := exists_upper_cons r rs
      have hendings := endings?_upper (r :: rs)
      rw [hrest] at hendings
      simp only [hbase, hrest, hendings, Option.map_map]
      congr 1
      funext endings
      simp only [Function.comp_apply, upper, hbase]

/-- A text that begins like none of the four kinds of token is none. -/
theorem ofBody_of_head {c : Char} (hnum : c ≠ '#') (hbar : c ≠ '|') (hword : c ≠ '&')
    (raw : List Char) (negated : Bool) (cs : List Char) :
    ofBody raw negated (c :: cs) = .error (.unknownToken (String.ofList raw)) := by
  unfold ofBody
  split
  · rename_i he
    exact absurd (List.cons.inj he).1 hnum
  · rename_i he
    exact absurd (List.cons.inj he).1 hbar
  · rename_i he
    exact absurd (List.cons.inj he).1 hword
  · rfl

/-- The cases are the four heads that a token can have; any other character keeps its uppercase from
being one of them. -/
theorem ofBody_upper (raw : List Char) (negated : Bool) (body : List Char) :
    ofBody (Text.upper raw) negated (Text.upper body) =
      ((ofBody raw negated body).map upper).mapError TextError.upper := by
  cases body with
  | nil => simp [ofBody, Except.map, Except.mapError]
  | cons c cs =>
    by_cases hnum : c = '#'
    · subst hnum
      rw [upper_cons_of_isMark (by decide), ofBody, ofBody, index?_upper]
      cases index? cs <;> simp [Except.map, Except.mapError]
    by_cases hbar : c = '|'
    · subst hbar
      rw [upper_cons_of_isMark (by decide), ofBody, ofBody]
      cases negated <;> simp [Except.map, Except.mapError]
    by_cases hword : c = '&'
    · subst hword
      rw [upper_cons_of_isMark (by decide)]
      cases cs with
      | nil => simp [ofBody, Except.map, Except.mapError]
      | cons x xs =>
        obtain ⟨d, ds, he, -⟩ := exists_upper_cons x xs
        have hw := word?_upper (x :: xs) negated
        rw [he] at hw ⊢
        rw [ofBody, ofBody, hw]
        cases word? (x :: xs) negated <;> simp [Except.map, Except.mapError]
    obtain ⟨d, ds, he, hne⟩ := exists_upper_cons c cs
    rw [he, ofBody_of_head hnum hbar hword, ofBody_of_head (hne '#' (by decide) hnum)
      (hne '|' (by decide) hbar) (hne '&' (by decide) hword)]
    simp [Except.map, Except.mapError]

theorem ofChars_of_head {c : Char} (h : c ≠ '!') (cs : List Char) :
    ofChars (c :: cs) = ofBody (c :: cs) false (c :: cs) := by
  unfold ofChars
  split
  · rename_i he
    exact absurd (List.cons.inj he).1 h
  · rfl

/-- **A token is recognised alike in either case.** -/
theorem ofChars_upper (raw : List Char) :
    ofChars (Text.upper raw) = ((ofChars raw).map upper).mapError TextError.upper := by
  cases raw with
  | nil => exact ofBody_upper [] false []
  | cons c cs =>
    by_cases hc : c = '!'
    · subst hc
      have hbody := ofBody_upper ('!' :: cs) true cs
      rw [upper_cons_of_isMark (by decide)] at hbody ⊢
      exact hbody
    · have hbody := ofBody_upper (c :: cs) false (c :: cs)
      obtain ⟨d, ds, he, hne⟩ := exists_upper_cons c cs
      rw [he] at hbody ⊢
      rw [ofChars_of_head hc, ofChars_of_head (hne '!' (by decide) hc), hbody]

end Token

/-! ## Groups -/

namespace Group

namespace Reading

theorem word_upper (connective : Connective) (w : List Char) (negated : Bool) :
    Literal.word connective (String.ofList (Text.upper w)) negated =
      Literal.word connective (String.ofList w) negated := by
  simp only [Literal.word, uppercase_ofList, upper_upper]

/-- The word and its endings are put together in either case. -/
theorem expansion_upper (base : List Char) (endings : List (List Char)) (negated : Bool) :
    expansion (Text.upper base) (endings.map Text.upper) negated =
      expansion base endings negated := by
  have hwords : Text.upper base :: (endings.map Text.upper).map (Text.upper base ++ ·) =
      (base :: endings.map (base ++ ·)).map Text.upper := by
    simp only [List.map_cons, List.map_map, Function.comp_def, upper_append]
  simp only [expansion]
  rw [hwords, List.map_map]
  exact List.map_congr_left fun w _ => word_upper _ w negated

/-- A literal does not keep the case of its word. -/
theorem push_upper (r : Reading) (t : Token) : r.push t.upper = r.push t := by
  cases t with
  | bar => rfl
  | group k negated => rfl
  | word w negated => rw [Token.upper, push, push, word_upper]
  | expansion base endings negated => rw [Token.upper, push, push, expansion_upper]

theorem next_upper (available : Nat) (r : Reading) (raw : List Char) :
    next available r (Text.upper raw) = (next available r raw).mapError TextError.upper := by
  unfold next
  rw [Token.ofChars_upper]
  cases Token.ofChars raw with
  | error e => rfl
  | ok t =>
    have hpush := push_upper r t
    cases t with
    | group k negated =>
      by_cases hk : k < available
      · simp [Except.map, Except.mapError, hk]
      · simp [Except.map, Except.mapError, hk]
    | bar => rfl
    | word w negated => exact congrArg Except.ok hpush
    | expansion base endings negated => exact congrArg Except.ok hpush

theorem foldlM_upper (available : Nat) (r : Reading) (pieces : List (List Char)) :
    (pieces.map Text.upper).foldlM (next available) r =
      (pieces.foldlM (next available) r).mapError TextError.upper := by
  induction pieces generalizing r with
  | nil => rfl
  | cons raw pieces ih =>
    rw [List.map_cons, List.foldlM_cons, List.foldlM_cons, next_upper]
    cases next available r raw with
    | error e => rfl
    | ok r' => exact ih r'

end Reading

/-- **A group is read alike in either case.** -/
theorem ofChars_upper (available : Nat) (text : List Char) :
    ofChars available (Text.upper text) = (ofChars available text).mapError TextError.upper := by
  have hspace : isMark ' ' = true := by decide
  unfold ofChars
  rw [trim_upper, segments_upper hspace, Reading.foldlM_upper]
  cases (segments ' ' (trim text)).foldlM (Reading.next available) Reading.start with
  | error e => rfl
  | ok r =>
    simp only [Except.mapError]
    split <;> rfl

end Group

/-! ## Scans -/

namespace Scan

/-- The scan of a text in uppercase: the groups are the same. -/
def upper (st : Scan) : Scan := ⟨st.groups, st.outer.map Text.upper, Text.upper st.current⟩

theorem upper_reference (k : Nat) : Text.upper (Condition.reference k) = Condition.reference k := by
  refine upper_of_isMark fun c hc => ?_
  rcases List.mem_cons.1 hc with rfl | hc
  · decide
  · exact isMark_of_isDigit (Nat.isDigit_of_mem_toDigits (by decide) (by decide) hc)

theorem written_upper (outer : List (List Char)) (current : List Char) :
    written (outer.map Text.upper) (Text.upper current) = Text.upper (written outer current) := by
  induction outer generalizing current with
  | nil => rfl
  | cons below outer ih =>
    rw [List.map_cons, written, written, ← ih, upper_append, upper_cons_of_isMark (by decide)]

theorem text_upper (st : Scan) : st.upper.text = Text.upper st.text := written_upper _ _

theorem close_upper (st : Scan) (rest : List Char) :
    st.upper.close (Text.upper rest) =
      ((st.close rest).map Scan.upper).mapError TextError.upper := by
  have htext : Text.upper (st.text ++ ')' :: rest) = st.upper.text ++ ')' :: Text.upper rest := by
    rw [upper_append, upper_cons_of_isMark (by decide), text_upper]
  unfold close
  rw [← htext]
  cases ho : st.outer with
  | nil =>
    simp only [upper, ho, List.map_nil, Except.map, Except.mapError, TextError.upper,
      uppercase_ofList]
  | cons below outer =>
    simp only [upper, ho, List.map_cons, Group.ofChars_upper]
    cases Group.ofChars st.groups.length st.current with
    | error e => rfl
    | ok g =>
      simp [Except.map, Except.mapError, upper, upper_append, upper_reference]

/-- Where a scan takes a character, the scan of the uppercase takes the uppercase of the character: a
parenthesis is left alone, and there is none in that of another character. -/
theorem step_upper (st : Scan) (c : Char) (rest : List Char) :
    st.upper.advance (upperChar c) (Text.upper rest) =
      ((st.step c rest).map Scan.upper).mapError TextError.upper := by
  by_cases ho : c = '('
  · subst ho
    rw [upperChar_of_isMark (by decide), advance_open, step, if_pos rfl]
    rfl
  by_cases hc : c = ')'
  · subst hc
    rw [upperChar_of_isMark (by decide), advance_closing, close_upper, step, if_neg (by decide),
      if_pos rfl]
  have hplain (m : Char) (hm : isMark m = true) (hne : c ≠ m) : m ∉ upperChar c :=
    fun h => hne (eq_of_mem_upperChar hm h).symm
  rw [advance_plain (hplain '(' (by decide) ho) (hplain ')' (by decide) hc), step, if_neg ho,
    if_neg hc]
  simp [Except.map, Except.mapError, upper, upper_append, upper_cons]

/-- **The two scans go through states that differ in case only.** -/
theorem advance_upper (st : Scan) (cs rest : List Char) :
    st.upper.advance (Text.upper cs) (Text.upper rest) =
      ((st.advance cs rest).map Scan.upper).mapError TextError.upper := by
  induction cs generalizing st with
  | nil => rfl
  | cons c cs ih =>
    rw [upper_cons, advance_append, ← upper_append, step_upper, advance]
    cases st.step c (cs ++ rest) with
    | error e => rfl
    | ok st' => exact ih st'

theorem finish_upper (st : Scan) : st.upper.finish = st.finish.mapError TextError.upper := by
  unfold finish
  rw [text_upper]
  cases ho : st.outer with
  | nil =>
    simp only [upper, ho, List.map_nil, Group.ofChars_upper]
    cases Group.ofChars st.groups.length st.current <;> rfl
  | cons below outer =>
    simp [upper, ho, Except.mapError]

theorem run_upper (st : Scan) (cs : List Char) :
    st.upper.run (Text.upper cs) = (st.run cs).mapError TextError.upper := by
  have hadvance := advance_upper st cs []
  rw [upper_nil] at hadvance
  unfold run
  rw [hadvance]
  cases st.advance cs [] with
  | error e => rfl
  | ok st' => exact finish_upper st'

end Scan

/-- **A rule text is read alike in either case.** -/
theorem Condition.ofText_uppercase (t : String) :
    Condition.ofText (uppercase t) = (Condition.ofText t).mapError TextError.upper := by
  rw [Scan.ofText_eq_run, Scan.ofText_eq_run, uppercase, String.toList_ofList, trim_upper]
  exact Scan.run_upper .start _

/-- Two texts of the same uppercase describe the same condition or show the same fault. -/
theorem Condition.ofText_congr {t t' : String} (h : uppercase t = uppercase t') :
    (∃ c, Condition.ofText t = .ok c ∧ Condition.ofText t' = .ok c) ∨
    ∃ e e', e.Alike e' ∧ Condition.ofText t = .error e ∧ Condition.ofText t' = .error e' := by
  have hread : (Condition.ofText t).mapError TextError.upper =
      (Condition.ofText t').mapError TextError.upper := by
    rw [← Condition.ofText_uppercase, ← Condition.ofText_uppercase, h]
  cases hc : Condition.ofText t with
  | error e =>
    cases hc' : Condition.ofText t' with
    | error e' =>
      rw [hc, hc'] at hread
      exact .inr ⟨e, e', TextError.alike_of_upper_eq (Except.error.inj hread), rfl, rfl⟩
    | ok c' =>
      rw [hc, hc'] at hread
      cases hread
  | ok c =>
    cases hc' : Condition.ofText t' with
    | error e' =>
      rw [hc, hc'] at hread
      cases hread
    | ok c' =>
      rw [hc, hc'] at hread
      cases hread
      exact .inl ⟨c, rfl, rfl⟩

theorem Sentence.words_upper (cs : List Char) : words (upper cs) = (words cs).map upper := by
  have hspace : isMark ' ' = true := by decide
  have hne : (fun w : List Char => decide (w ≠ [])) ∘ upper = fun w => decide (w ≠ []) := by
    funext w
    simp only [Function.comp_apply, ne_eq, upper_eq_nil_iff]
  rw [words, words, trim_upper, segments_upper hspace, List.filter_map, hne]

/-- **A sentence has the same tokens in either case.** -/
theorem Sentence.ofText_uppercase (s : String) :
    Sentence.ofText (uppercase s) = Sentence.ofText s := by
  simp only [ofText, uppercase, String.toList_ofList, words_upper, List.map_map,
    Function.comp_def, upper_upper]

/-! ## Answers -/

/-- The answer for a text that is read is the truth about its root. -/
theorem satisfies_eq_ok {text : String} {c : Condition} (h : Condition.ofText text = .ok c)
    (sentence : String) :
    satisfies sentence text =
      .ok (Condition.isTrue c.groups (Sentence.ofText sentence) c.root) := by
  have hw := Condition.ofText_wellFormed h
  rw [satisfies, h]
  simp only [Condition.holds, Condition.groupHolds_eq_ok hw.backward hw.root_lt, Except.mapError]

/-- **Case does not matter.** Two rule texts of the same uppercase either describe the same
condition, and it then gives the same answer for two sentences of the same uppercase, or they show
the same fault. -/
theorem answers_ignore_case {t t' s s' : String} (ht : uppercase t = uppercase t')
    (hs : uppercase s = uppercase s') :
    (∃ c, Condition.ofText t = .ok c ∧ Condition.ofText t' = .ok c ∧
      ∃ holds, satisfies s t = .ok holds ∧ satisfies s' t' = .ok holds) ∨
    ∃ e e', e.Alike e' ∧ Condition.ofText t = .error e ∧ Condition.ofText t' = .error e' ∧
      satisfies s t = .error (.text e) ∧ satisfies s' t' = .error (.text e') := by
  have hsentence : Sentence.ofText s = Sentence.ofText s' := by
    rw [← Sentence.ofText_uppercase, hs, Sentence.ofText_uppercase]
  obtain ⟨c, hc, hc'⟩ | ⟨e, e', halike, he, he'⟩ := Condition.ofText_congr ht
  · have hholds := satisfies_eq_ok hc' s'
    rw [← hsentence] at hholds
    exact .inl ⟨c, hc, hc', _, satisfies_eq_ok hc s, hholds⟩
  · refine .inr ⟨e, e', halike, he, he', ?_, ?_⟩
    · rw [satisfies, he]
    · rw [satisfies, he']

/-- The ending of a word becomes longer. -/
theorem answers_ignore_case_sharpS :
    uppercase "(&stra[ße/t]) !#0 | &Weg" = uppercase "(&STRA[SSe/T]) !#0 | &weg" ∧
      uppercase "die Straße" = uppercase "Die STRASSE" ∧
      ∃ c, Condition.ofText "(&stra[ße/t]) !#0 | &Weg" = .ok c ∧
        Condition.ofText "(&STRA[SSe/T]) !#0 | &weg" = .ok c ∧
        satisfies "die Straße" "(&stra[ße/t]) !#0 | &Weg" = .ok false ∧
        satisfies "Die STRASSE" "(&STRA[SSe/T]) !#0 | &weg" = .ok false := by
  have ht : uppercase "(&stra[ße/t]) !#0 | &Weg" = uppercase "(&STRA[SSe/T]) !#0 | &weg" := by
    decide +kernel
  have hs : uppercase "die Straße" = uppercase "Die STRASSE" := by decide +kernel
  have hfalse : satisfies "die Straße" "(&stra[ße/t]) !#0 | &Weg" = .ok false := by cbv
  obtain ⟨c, hc, hc', holds, hh, hh'⟩ | ⟨e, -, -, -, -, he, -⟩ := answers_ignore_case ht hs
  · rw [hfalse] at hh
    cases hh
    exact ⟨ht, hs, c, hc, hc', hfalse, hh'⟩
  · rw [hfalse] at he
    cases he

end WordLogic
