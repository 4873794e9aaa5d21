import WordLogic.Text.Blank
import WordLogic.Token

/-!
# Tokens are read back

* `Token.Readable`: what rule syntax asks of a token, a word that has something in it and no
  bracket, and an index that can be read.
* `Token.ofChars_render`: a token of this kind is recognised from its text.
-/

namespace WordLogic.Token

/-- The text has something in it, and no bracket. -/
def IsName (cs : List Char) : Prop := cs ≠ [] ∧ ∀ c ∈ cs, isBracket c = false

/-- The token can be written in rule syntax. -/
def Readable : Token → Prop
  | .bar => True
  | .group k _ => k < indexBound
  | .word w _ => IsName w
  | .expansion base endings _ =>
    IsName base ∧ endings ≠ [] ∧ ∀ ending ∈ endings, IsName ending ∧ '/' ∉ ending

/-! ## Brackets -/

theorem not_isBracket {cs : List Char} (h : ∀ c ∈ cs, isBracket c = false) :
    ∀ c ∈ cs, (!isBracket c) = true := by
  intro c hc
  rw [h c hc, Bool.not_false]

/-- The brackets hold the endings apart from each other and from what is around them. -/
theorem endings?_join {endings : List (List Char)} (hne : endings ≠ [])
    (h : ∀ ending ∈ endings, IsName ending ∧ '/' ∉ ending) :
    endings? ('[' :: Text.joinSegments '/' endings ++ [']']) = some endings := by
  have hjoin : ∀ c ∈ Text.joinSegments '/' endings, isBracket c = false := by
    intro c hc
    obtain rfl | ⟨ending, he, hc⟩ := Text.mem_joinSegments hc
    · rfl
    · exact (h ending he).1.2 c hc
  have hclose : (!isBracket ']') = false := rfl
  obtain ⟨ht, hd⟩ := Text.span_append (not_isBracket hjoin) hclose []
  have hsegments := Text.segments_join hne fun ending he => (h ending he).2
  have hnil : [] ∉ endings := fun he => (h [] he).1.1 rfl
  rw [List.cons_append, endings?]
  simp only [ht, hd, hsegments, true_and]
  exact if_pos hnil

theorem word?_word {w : List Char} (h : IsName w) (negated : Bool) :
    word? w negated = some (.word w negated) := by
  obtain ⟨hne, hw⟩ := h
  obtain ⟨ht, hd⟩ := Text.span_eq_self (not_isBracket hw)
  unfold word?
  rw [ht, hd]
  cases w with
  | nil => exact absurd rfl hne
  | cons c cs => rfl

theorem word?_expansion {base : List Char} {endings : List (List Char)} (h : IsName base)
    (hne : endings ≠ []) (he : ∀ ending ∈ endings, IsName ending ∧ '/' ∉ ending)
    (negated : Bool) :
    word? (base ++ ('[' :: Text.joinSegments '/' endings ++ [']'])) negated =
      some (.expansion base endings negated) := by
  obtain ⟨hbase, hb⟩ := h
  have hopen : (!isBracket '[') = false := rfl
  obtain ⟨ht, hd⟩ := Text.span_append (not_isBracket hb) hopen
    (Text.joinSegments '/' endings ++ [']'])
  unfold word?
  rw [List.cons_append, ht, hd]
  cases base with
  | nil => exact absurd rfl hbase
  | cons c cs =>
    simp only
    rw [← List.cons_append, endings?_join hne he, Option.map_some]

/-! ## Whole tokens -/

theorem index?_toDigits {k : Nat} (h : k < indexBound) : index? (Nat.toDigits 10 k) = some k := by
  have hdigits : (Nat.toDigits 10 k).all Char.isDigit := List.all_eq_true.2 fun _ hc =>
    Nat.isDigit_of_mem_toDigits (by decide) (by decide) hc
  unfold index?
  rw [Nat.ofDigitChars_ten_toDigits, if_pos ⟨Nat.toDigits_ne_nil, hdigits, h⟩]

/-- The mark of a negated token is taken off. -/
theorem ofChars_sign (negated : Bool) {c : Char} (hc : c ≠ '!') (cs : List Char) :
    ofChars (sign negated ++ c :: cs) = ofBody (sign negated ++ c :: cs) negated (c :: cs) := by
  cases negated with
  | true => rfl
  | false =>
    show ofChars (c :: cs) = _
    unfold ofChars
    split
    · rename_i he
      cases he
      exact absurd rfl hc
    · rfl

/-- What follows `&` is recognised. -/
theorem ofBody_word {raw cs : List Char} {negated : Bool} {t : Token}
    (h : word? cs negated = some t) : ofBody raw negated ('&' :: cs) = .ok t := by
  cases cs with
  | nil => simp [word?] at h
  | cons c cs =>
    unfold ofBody
    simp only [h]

/-- **A token is read back from its text.** -/
theorem ofChars_render {t : Token} (h : t.Readable) : ofChars t.render = .ok t := by
  cases t with
  | bar => rfl
  | group k negated =>
    rw [render, ofChars_sign negated (by decide), ofBody, index?_toDigits h]
  | word w negated =>
    rw [render, ofChars_sign negated (by decide)]
    exact ofBody_word (word?_word h negated)
  | expansion base endings negated =>
    obtain ⟨hbase, hne, he⟩ := h
    have hrender : render (.expansion base endings negated) = sign negated ++
        '&' :: (base ++ ('[' :: Text.joinSegments '/' endings ++ [']'])) := by
      rw [render, List.append_assoc, List.append_assoc, List.cons_append]
    rw [hrender, ofChars_sign negated (by decide)]
    exact ofBody_word (word?_expansion hbase hne he negated)

end WordLogic.Token
