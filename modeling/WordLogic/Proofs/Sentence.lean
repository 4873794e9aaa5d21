import WordLogic.Proofs.Condition.Casing
import WordLogic.Proofs.Text.Segments

/-!
# Tokens are stable

The tokens of a sentence, joined by single spaces, are a text with the same tokens
(`Sentence.ofText_join`). Only the ends of a text are trimmed of all blanks; between the tokens only
spaces are cut out, so a token can have a tab or a line break in it, but the first one does not begin
with a blank and the last one does not end with one. That is why nothing is trimmed the second time.
-/

namespace WordLogic

namespace Sentence

open Text

theorem ne_nil_of_mem_words {cs w : List Char} (h : w ∈ words cs) : w ≠ [] :=
  of_decide_eq_true (List.mem_filter.1 h).2

theorem space_notMem_of_mem_words {cs w : List Char} (h : w ∈ words cs) : ' ' ∉ w :=
  not_mem_of_mem_segments (List.mem_filter.1 h).1

/-- The words of a text joined by spaces have no blanks at their ends. -/
theorem trim_join_words (cs : List Char) :
    trim (joinSegments ' ' (words cs)) = joinSegments ' ' (words cs) := by
  have hspace : isBlank ' ' = true := by decide
  apply trim_eq_self
  · intro c hc
    rcases head?_join_filter hc with h | h <;> rw [join_segments] at h
    · exact head?_trim h
    · exact absurd (head?_trim h) (by simp [hspace])
  · intro c hc
    rcases getLast?_join_filter hc with h | h <;> rw [join_segments] at h
    · exact getLast?_trim h
    · exact absurd (getLast?_trim h) (by simp [hspace])

/-- The words of a text joined by spaces are a text with these words. -/
theorem words_join_words (cs : List Char) : words (joinSegments ' ' (words cs)) = words cs := by
  rw [words, trim_join_words]
  by_cases hne : words cs = []
  · rw [hne]
    rfl
  · rw [segments_join hne fun w => space_notMem_of_mem_words]
    exact List.filter_eq_self.2 fun w hw => decide_eq_true (ne_nil_of_mem_words hw)

/-- The words of a text in uppercase, joined by spaces, are a text with these words. -/
theorem words_join_upper (cs : List Char) :
    words (joinSegments ' ' ((words cs).map upper)) = (words cs).map upper := by
  have hspace : isMark ' ' = true := by decide
  rw [← upper_joinSegments hspace, words_upper, words_join_words]

/-- **Tokens are stable.** No token of a text is empty or has a space in it, and the tokens are the
words that the sentence contains. Joined by single spaces, they are a text that is the same sentence,
and so satisfies the same rules. -/
theorem ofText_join (text : String) :
    (∀ token ∈ (ofText text).tokens, token ≠ "" ∧ ' ' ∉ token.toList) ∧
    (∀ w, (ofText text).contains w = true ↔ w ∈ (ofText text).tokens) ∧
    ofText (" ".intercalate (ofText text).tokens) = ofText text ∧
    ∀ rule, satisfies (" ".intercalate (ofText text).tokens) rule = satisfies text rule := by
  have hjoin : ofText (" ".intercalate (ofText text).tokens) = ofText text := by
    have hjoined : (" ".intercalate (ofText text).tokens).toList =
        joinSegments ' ' ((words text.toList).map upper) := by
      simp [ofText, joinSegments, Function.comp_def]
    rw [ofText, hjoined, words_join_upper, ofText]
    simp [upper_upper]
  refine ⟨?_, fun w => List.contains_iff_mem, hjoin, fun rule => ?_⟩
  · intro token htoken
    obtain ⟨w, hw, rfl⟩ := List.mem_map.1 htoken
    refine ⟨fun hempty => ?_, ?_⟩
    · have hupper : upper w = [] := by simpa using congrArg String.toList hempty
      exact ne_nil_of_mem_words hw (upper_eq_nil_iff.1 hupper)
    · rw [String.toList_ofList]
      intro hmem
      obtain ⟨c, hc, hspace⟩ := mem_upper.1 hmem
      rw [← eq_of_mem_upperChar (by decide) hspace] at hc
      exact space_notMem_of_mem_words hw hc
  · rw [satisfies, satisfies, hjoin]

example : (ofText "\u00a0 a\tb  ß ").tokens = ["A\tB", "SS"] := by decide

end Sentence

end WordLogic
