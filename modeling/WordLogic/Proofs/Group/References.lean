import Mathlib.Data.List.Basic
import WordLogic.Proofs.Group.Connectives
import WordLogic.Proofs.Text.Pieces
import WordLogic.Proofs.Token.Grammar

/-!
# References in a text

A reference `#k` in the text of a group is read with what touches it. If it stands apart (`Apart`),
it is a token of its own and the group has a literal for it. If not, the text may still be read, and
the token that takes it in is something else (`Token.Absorbs`): a bar, a word or a reference with
more digits.

* `Token.WrittenAs.absorbs`: there is no third case.
* `Group.ofChars_around_reference`: what becomes of a reference when a group is read.
-/

namespace WordLogic

open Condition

/-! ## References that stand apart -/

/-- The part between `left` and `right` stands apart: nothing touches it but a `!` in front, if it
is negated. -/
structure Apart (negated : Bool) (left right : List Char) : Prop where
  before : ∃ margin, left = margin ++ Token.sign negated ∧ Text.Clear margin.reverse
  after : Text.Clear right

theorem touching_eq_sign_iff {negated : Bool} {left : List Char} :
    Text.touching left.reverse = Token.sign negated ↔
      ∃ margin, left = margin ++ Token.sign negated ∧ Text.Clear margin.reverse := by
  have hbang : Text.isBlank '!' = false := by decide
  cases negated with
  | false => simp [Token.sign, Text.touching_eq_nil_iff]
  | true =>
    show Text.touching left.reverse = ['!'] ↔ ∃ margin, left = margin ++ ['!'] ∧ _
    constructor
    · intro h
      obtain ⟨rest, he⟩ := Text.touching_prefix left.reverse
      rw [h] at he
      rw [← he, List.singleton_append, Text.touching_cons hbang, List.cons_inj_right,
        Text.touching_eq_nil_iff] at h
      refine ⟨rest.reverse, ?_, by rwa [List.reverse_reverse]⟩
      rw [← List.reverse_reverse left, ← he, List.reverse_append, List.reverse_singleton]
    · rintro ⟨margin, rfl, h⟩
      rw [List.reverse_append, List.reverse_singleton, List.singleton_append,
        Text.touching_cons hbang, Text.touching_eq_nil_iff.2 h]

theorem apart_iff_touching {negated : Bool} {left right : List Char} :
    Apart negated left right ↔
      Text.touching left.reverse = Token.sign negated ∧ Text.touching right = [] := by
  rw [touching_eq_sign_iff, Text.touching_eq_nil_iff]
  exact ⟨fun h => ⟨h.before, h.after⟩, fun h => ⟨h.1, h.2⟩⟩

theorem Token.reverse_sign (negated : Bool) : (sign negated).reverse = sign negated := by
  cases negated <;> rfl

/-- A part that stands apart makes a piece with its sign. -/
theorem pieceAround_of_apart {negated : Bool} {left right : List Char}
    (h : Apart negated left right) (part : List Char) :
    Text.pieceAround left part right = Token.sign negated ++ part := by
  obtain ⟨hl, hr⟩ := apart_iff_touching.1 h
  rw [Text.pieceAround, hl, hr, List.append_nil, Token.reverse_sign]

/-! ## References in longer tokens -/

theorem notMem_reference {c : Char} (hc : c ≠ '#') (hd : c.isDigit = false) (k : Nat) :
    c ∉ reference k := by
  intro h
  rcases List.mem_cons.1 h with h | h
  · exact hc h
  · rw [Nat.isDigit_of_mem_toDigits (by decide) (by decide) h] at hd
    cases hd

namespace Token

/-- The token has taken in the reference to the group `k`, and is something else: it is a bar, which
ignores what follows it, a word with the reference in it or in one of its endings, or a reference
whose index has more digits after those of `k`. -/
def Absorbs (k : Nat) : Token → Prop
  | .bar => True
  | .group k' _ => ∃ more, more ≠ [] ∧ k' = Nat.ofDigitChars 10 (Nat.toDigits 10 k ++ more) 0
  | .word w _ => reference k <:+: w
  | .expansion base endings _ =>
    reference k <:+: base ∨ ∃ ending ∈ endings, reference k <:+: ending

theorem not_infix_sign {k : Nat} {negated : Bool} : ¬reference k <:+: sign negated := by
  intro h
  have := h.subset (List.mem_cons_self : '#' ∈ reference k)
  cases negated <;> simp [sign] at this

/-- A text with a reference in it writes the reference and its sign, or a token that has taken it
in. -/
theorem WrittenAs.absorbs {t : Token} {before after : List Char} {k : Nat}
    (h : t.WrittenAs (before ++ reference k ++ after)) :
    (∃ negated, before = sign negated ∧ after = []) ∨ t.Absorbs k := by
  have hinfix : reference k <:+: before ++ reference k ++ after := List.infix_append _ _ _
  generalize hraw : before ++ reference k ++ after = raw at h hinfix
  cases h with
  | bar rest => exact .inr trivial
  | @group negated digits hne hdigits hlt =>
    rw [reference, List.append_assoc, List.cons_append] at hraw
    have hsign : '#' ∉ sign negated := by cases negated <;> simp [sign]
    have hmark : '#' ∉ digits := fun hm => absurd (hdigits _ hm) (by decide)
    obtain ⟨he, -, rfl⟩ := (List.append_cons_inj_of_notMem hsign hmark).1 hraw.symm
    by_cases hafter : after = []
    · exact .inl ⟨negated, he.symm, hafter⟩
    · exact .inr ⟨after, hafter, rfl⟩
  | @word negated w hw =>
    have hword := Text.infix_or_infix (notMem_reference (by decide) rfl k) hinfix
    exact .inr (hword.resolve_left not_infix_sign)
  | @expansion negated base endings hbase hendings =>
    have hclose := Text.infix_or_infix (notMem_reference (by decide) rfl k) hinfix
    have hne : reference k ≠ [] := List.cons_ne_nil _ _
    have hopen := Text.infix_or_infix (notMem_reference (by decide) rfl k)
      (hclose.resolve_right fun h => hne (List.infix_nil.1 h))
    rcases hopen with h | h
    · have hbase := Text.infix_or_infix (notMem_reference (by decide) rfl k) h
      exact .inr (.inl (hbase.resolve_left not_infix_sign))
    · exact .inr (.inr
        (Text.infix_of_infix_joinSegments hne (notMem_reference (by decide) rfl k) h))

/-- A reference alone, with its sign, is what it refers to. -/
theorem eq_of_ofChars_reference {t : Token} {negated : Bool} {k : Nat}
    (h : ofChars (sign negated ++ reference k) = .ok t) : t = .group k negated := by
  rw [reference, ofChars_sign negated (by decide), ofBody] at h
  split at h
  · rename_i k' hk
    cases h
    obtain ⟨-, -, -, he⟩ := index?_eq_some.1 hk
    rw [Nat.ofDigitChars_ten_toDigits] at he
    rw [he]
  · cases h

end Token

namespace Group

/-- Each element gives one of the values. -/
theorem exists_of_mapM_eq_ok {α β ε : Type} {f : α → Except ε β} {xs : List α} {ys : List β}
    (h : xs.mapM f = .ok ys) {x : α} (hx : x ∈ xs) : ∃ y ∈ ys, f x = .ok y := by
  induction xs generalizing ys with
  | nil => cases hx
  | cons a xs ih =>
    obtain ⟨y, zs, ha, hzs, rfl⟩ := mapM_cons_eq_ok.1 h
    rcases List.mem_cons.1 hx with rfl | hx
    · exact ⟨y, List.mem_cons_self, ha⟩
    · obtain ⟨z, hz, hf⟩ := ih hzs hx
      exact ⟨z, List.mem_cons_of_mem _ hz, hf⟩

/-- A reference among the tokens is among the literals. -/
theorem exists_literal {ts : List Token} {k : Nat} {negated : Bool}
    (h : Token.group k negated ∈ ts) :
    ∃ l ∈ (ofTokens ts).literals, l.negated = negated ∧ l.atom = .group k := by
  obtain ⟨i, hi, ht⟩ := List.getElem_of_mem h
  rw [ofTokens_eq]
  refine ⟨.group (connectiveAt (ts.take i) (ts.drop (i + 1))) k negated, ?_, rfl, rfl⟩
  refine List.mem_flatMap.2 ⟨(.group k negated, i), ?_, List.mem_singleton_self _⟩
  rw [List.mk_mem_zipIdx_iff_getElem?, List.getElem?_eq_getElem hi, ht]

/-- **What becomes of a reference in the text of a group.** It is read with what touches it. If it
stands apart, this is a token for it, and the group has a literal for it. If it does not, the token
has taken it in. -/
theorem ofChars_around_reference {available k : Nat} {left right : List Char} {g : Group}
    (h : ofChars available (left ++ reference k ++ right) = .ok g) :
    ∃ ts token,
      (Text.segments ' ' (Text.trim (left ++ reference k ++ right))).mapM Token.ofChars = .ok ts ∧
      g = ofTokens ts ∧ token ∈ ts ∧
      Token.ofChars (Text.pieceAround left (reference k) right) = .ok token ∧
      (∀ negated, Apart negated left right → token = .group k negated ∧
        ∃ l ∈ g.literals, l.negated = negated ∧ l.atom = .group k) ∧
      ((∀ negated, ¬Apart negated left right) → token.Absorbs k) := by
  obtain ⟨ts, hts, -, -, rfl⟩ := ofChars_eq_ok_iff.1 h
  have hne : reference k ≠ [] := List.cons_ne_nil _ _
  have hpiece := Text.mem_segments_around left right hne fun c hc => (Scan.reference_mem hc).2.2
  obtain ⟨token, hm, ht⟩ := exists_of_mapM_eq_ok hts hpiece
  refine ⟨ts, token, hts, rfl, hm, ht, fun negated hapart => ?_, fun hno => ?_⟩
  · rw [pieceAround_of_apart hapart] at ht
    obtain rfl := Token.eq_of_ofChars_reference ht
    exact ⟨rfl, exists_literal hm⟩
  · refine (Token.ofChars_eq_ok_iff.1 ht).absorbs.resolve_left ?_
    rintro ⟨negated, hl, hr⟩
    refine hno negated (apart_iff_touching.2 ⟨?_, hr⟩)
    rw [← List.reverse_reverse (Text.touching _), hl, Token.reverse_sign]

end Group
end WordLogic
