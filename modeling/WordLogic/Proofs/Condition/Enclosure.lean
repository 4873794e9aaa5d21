import Mathlib
import WordLogic.Proofs.Condition.Nesting
import WordLogic.Proofs.Group.References

/-!
# The group around a group

The reference that takes the place of a group is read again with the text around it. Where the group
stands apart from what is next to it, the group around it has a literal for it. A group that touches
something else is lost in the token it touches, and the text is read all the same.

* `StandsIn`: which group stands directly in which, and between which texts.
* `exists_standsIn`: every group of a balanced text stands in another one or in the whole text.
* `ofChars_of_content`: what a group is read from.
* `apart_spliced`: references stand apart where the groups did.
* `ofText_enclosing`: what becomes of each group of a text.
-/

namespace WordLogic

open Condition

namespace Scan

/-! ## Groups in groups -/

/-- The text is what stands between the parentheses of the group with an index, or it is the whole
text, which is the last group. -/
inductive Content (text : List Char) : Nat → List Char → Prop
  | whole : Content text (text.count ')') text
  | group {before content after : List Char} (h : text = before ++ '(' :: content ++ ')' :: after)
      (hc : Balanced content) : Content text ((before ++ content).count ')') content

/-- The group with the index `k` stands directly in the one with the index `p`, between `left` and
`right`. -/
structure StandsIn (text : List Char) (k p : Nat) (left right : List Char) : Prop where
  content : ∃ inner, Balanced inner ∧ Content text p (left ++ '(' :: inner ++ ')' :: right)
  balanced_left : Balanced left
  balanced_right : Balanced right
  index : p = k + 1 + right.count ')'

/-- A balanced text in front goes to the left of the groups of the whole text. -/
theorem StandsIn.prepend {xs text left right : List Char} {k p : Nat} (hx : Balanced xs)
    (h : StandsIn text k p left right) :
    ∃ left', StandsIn (xs ++ text) (xs.count ')' + k) (xs.count ')' + p) left' right := by
  obtain ⟨⟨inner, hinner, hcontent⟩, hleft, hright, hindex⟩ := h
  have hindex' : xs.count ')' + p = xs.count ')' + k + 1 + right.count ')' := by omega
  generalize hc : left ++ '(' :: inner ++ ')' :: right = content at hcontent
  cases hcontent with
  | whole =>
    refine ⟨xs ++ left, ⟨inner, hinner, ?_⟩, hx.append hleft, hright, hindex'⟩
    have hwhole : xs ++ left ++ '(' :: inner ++ ')' :: right = xs ++ text := by
      rw [← hc]
      simp
    rw [hwhole, ← List.count_append]
    exact .whole
  | @group before _ after htext hbal =>
    refine ⟨left, ⟨inner, hinner, ?_⟩, hleft, hright, hindex'⟩
    rw [hc, ← List.count_append, ← List.append_assoc]
    have hnext : xs ++ text = xs ++ before ++ '(' :: content ++ ')' :: after := by
      rw [htext]
      simp
    exact .group hnext hbal

theorem Content.count_le {text content : List Char} {p : Nat} (h : Content text p content) :
    content.count ')' ≤ p := by
  cases h with
  | whole => exact Nat.le_refl _
  | group _ _ =>
    rw [List.count_append]
    exact Nat.le_add_left _ _

/-- In parentheses, a text is the content of a group. -/
theorem StandsIn.nested {text left right : List Char} {k p : Nat} (hb : Balanced text)
    (h : StandsIn text k p left right) (cs : List Char) :
    StandsIn ('(' :: text ++ ')' :: cs) k p left right := by
  obtain ⟨⟨inner, hinner, hcontent⟩, hleft, hright, hindex⟩ := h
  refine ⟨⟨inner, hinner, ?_⟩, hleft, hright, hindex⟩
  generalize left ++ '(' :: inner ++ ')' :: right = content at hcontent
  cases hcontent with
  | whole =>
    have hwhole : '(' :: text ++ ')' :: cs = [] ++ '(' :: text ++ ')' :: cs := rfl
    exact .group hwhole hb
  | @group before _ after htext hbal =>
    have hcount : (before ++ content).count ')' = ('(' :: before ++ content).count ')' := by
      rw [List.cons_append, List.count_cons_of_ne (by decide)]
    rw [hcount]
    have hnested : '(' :: text ++ ')' :: cs =
        '(' :: before ++ '(' :: content ++ ')' :: (after ++ ')' :: cs) := by
      rw [htext]
      simp
    exact .group hnested hbal

/-- **Every group of a balanced text stands in another group or in the whole text.** -/
theorem exists_standsIn {text : List Char} (hb : Balanced text) {k : Nat}
    (hk : k < text.count ')') : ∃ p left right, StandsIn text k p left right := by
  induction hb generalizing k with
  | nil => cases hk
  | @char c cs ho hc h ih =>
    rw [List.count_cons_of_ne hc] at hk
    obtain ⟨p, left, right, hstands⟩ := ih hk
    obtain ⟨left', hnext⟩ := hstands.prepend (.char ho hc .nil)
    rw [List.count_cons_of_ne hc, List.count_nil, Nat.zero_add, Nat.zero_add] at hnext
    exact ⟨p, left', right, hnext⟩
  | @group inner cs hi h ihi ih =>
    rw [count_group] at hk
    rcases Nat.lt_trichotomy k (inner.count ')') with hlt | rfl | hgt
    · obtain ⟨p, left, right, hstands⟩ := ihi hlt
      exact ⟨p, left, right, hstands.nested hi cs⟩
    · refine ⟨_, [], cs, ⟨inner, hi, .whole⟩, .nil, h, ?_⟩
      rw [← count_group]
    · obtain ⟨k, rfl⟩ := Nat.exists_eq_add_of_le hgt
      obtain ⟨p, left, right, hstands⟩ := ih (k := k) (by omega)
      obtain ⟨left', hnext⟩ := hstands.prepend hi.nested
      rw [count_group, List.count_nil, List.append_assoc, List.singleton_append] at hnext
      exact ⟨_, left', right, hnext⟩

/-! ## What a group is read from -/

/-- A group is read from its content with references in place of the groups in it. -/
theorem ofChars_of_content {t : String} {c : Condition} (h : Condition.ofText t = .ok c)
    {content out : List Char} {k p : Nat} (hcontent : Content (Text.trim t.toList) p content)
    (hp : p = k + content.count ')') (hs : Spliced k content out) :
    ∃ g, c.groups[p]? = some g ∧ Group.ofChars p out = .ok g := by
  rw [ofText_eq_run] at h
  obtain ⟨last, root, ha, ho, hroot, rfl⟩ := run_eq_ok h
  generalize Text.trim t.toList = text at hcontent ha
  cases hcontent with
  | whole =>
    obtain rfl : k = 0 := by omega
    obtain ⟨groups, hgroups, hall⟩ := advance_spliced hs rfl ha
    rw [start, hall] at ha
    cases ha
    exact ⟨root, by simp [← hgroups], by rwa [← hgroups]⟩
  | @group before _ after htext _ =>
    rw [List.count_append] at hp ⊢
    obtain rfl : before.count ')' = k := by omega
    rw [htext] at ha
    obtain ⟨st, g, more, hst, hg, hlast⟩ := advance_close ha
    obtain ⟨mid, hmid, hst⟩ := advance_append_eq_ok hst
    obtain ⟨groups, hgroups, hcount⟩ := advance_groups hmid
    rw [start, List.nil_append] at hgroups
    subst hgroups
    rw [← List.singleton_append] at hst
    obtain ⟨_, hopen, hst⟩ := advance_append_eq_ok hst
    cases hopen
    obtain ⟨inner, hinner, hall⟩ := advance_spliced hs hcount hst
    rw [hall] at hst
    cases hst
    have hlength : (mid.groups ++ inner).length = before.count ')' + content.count ')' := by
      rw [List.length_append, hcount, hinner]
    refine ⟨g, ?_, by rwa [hlength] at hg⟩
    simp only [hlast, ← hlength]
    simp

/-! ## What stands beside a group -/

/-- At its end a text has what is spliced: the same character, or a reference for a group. -/
theorem Spliced.concat_cases {k : Nat} {cs out : List Char} (h : Spliced k cs out) :
    (cs = [] ∧ out = []) ∨
      (∃ c cs' out', cs = cs' ++ [c] ∧ out = out' ++ [c] ∧ Spliced k cs' out') ∨
      ∃ k' cs' out', cs = cs' ++ [')'] ∧ out = out' ++ reference k' := by
  induction h with
  | nil k => exact .inl ⟨rfl, rfl⟩
  | @char k c cs out ho hc _ ih =>
    right
    obtain ⟨rfl, rfl⟩ | ⟨d, cs', out', rfl, rfl, hs⟩ | ⟨k', cs', out', rfl, rfl⟩ := ih
    · exact .inl ⟨c, [], [], rfl, rfl, .nil k⟩
    · exact .inl ⟨d, c :: cs', c :: out', rfl, rfl, .char ho hc hs⟩
    · exact .inr ⟨k', c :: cs', c :: out', rfl, rfl⟩
  | @group k inner within cs out hi _ _ ih =>
    right
    obtain ⟨rfl, rfl⟩ | ⟨d, cs', out', rfl, rfl, hs⟩ | ⟨k', cs', out', rfl, rfl⟩ := ih
    · exact .inr ⟨k + inner.count ')', '(' :: inner, [], rfl, by simp⟩
    · refine .inl ⟨d, _, _, ?_, ?_, .group hi hs⟩ <;> simp
    · refine .inr ⟨k', '(' :: inner ++ ')' :: cs', reference (k + inner.count ')') ++ out', ?_, ?_⟩
        <;> simp

/-- What is spliced is blank if the text is. -/
theorem Spliced.blank_iff {k : Nat} {cs out : List Char} (h : Spliced k cs out) :
    (∀ c ∈ cs, Text.isBlank c = true) ↔ ∀ c ∈ out, Text.isBlank c = true := by
  induction h with
  | nil k => exact Iff.rfl
  | char _ _ _ ih => rw [List.forall_mem_cons, List.forall_mem_cons, ih]
  | group =>
    constructor
    · intro h
      exact absurd (h '(' List.mem_cons_self) (by decide)
    · intro h
      exact absurd (h '#' List.mem_cons_self) (by decide)

/-- A text that ends with a reference ends with the mark or a digit. -/
theorem getLast?_append_reference_ne {c : Char} (hc : c ≠ '#') (hd : c.isDigit = false)
    (out : List Char) (k : Nat) : (out ++ reference k).getLast? ≠ some c := by
  have hlast := List.getLast?_eq_some_getLast (List.cons_ne_nil '#' (Nat.toDigits 10 k))
  rw [List.getLast?_append, reference, hlast, Option.some_or, ← hlast]
  exact fun h => notMem_reference hc hd k (List.mem_of_getLast? h)

theorem Spliced.clear_right {k : Nat} {cs out : List Char} (h : Spliced k cs out) :
    Text.Clear cs ↔ Text.Clear out := by
  unfold Text.Clear
  rw [h.blank_iff]
  cases h with
  | nil => exact Iff.rfl
  | char => exact Iff.rfl
  | group => simp [reference]

theorem Spliced.clear_left {k : Nat} {cs out : List Char} (h : Spliced k cs out) :
    Text.Clear cs.reverse ↔ Text.Clear out.reverse := by
  unfold Text.Clear
  simp only [List.mem_reverse, List.head?_reverse]
  rw [h.blank_iff]
  obtain ⟨rfl, rfl⟩ | ⟨d, cs', out', rfl, rfl, -⟩ | ⟨k', cs', out', rfl, rfl⟩ := h.concat_cases
  · exact Iff.rfl
  · rw [List.getLast?_concat, List.getLast?_concat]
  · rw [List.getLast?_concat]
    exact or_congr_right
      (iff_of_false (by decide) (getLast?_append_reference_ne (by decide) rfl out' k'))

theorem Spliced.sign_left {k : Nat} {cs out : List Char} (h : Spliced k cs out) (negated : Bool) :
    (∃ margin, cs = margin ++ Token.sign negated ∧ Text.Clear margin.reverse) ↔
      ∃ margin, out = margin ++ Token.sign negated ∧ Text.Clear margin.reverse := by
  cases negated with
  | false => simpa [Token.sign] using h.clear_left
  | true =>
    show (∃ margin, cs = margin ++ ['!'] ∧ _) ↔ ∃ margin, out = margin ++ ['!'] ∧ _
    obtain ⟨rfl, rfl⟩ | ⟨d, cs', out', rfl, rfl, hs⟩ | ⟨k', cs', out', rfl, rfl⟩ := h.concat_cases
    · exact Iff.rfl
    · have concat (xs : List Char) : (∃ margin, xs ++ [d] = margin ++ ['!'] ∧
          Text.Clear margin.reverse) ↔ d = '!' ∧ Text.Clear xs.reverse := by
        constructor
        · rintro ⟨margin, he, hclear⟩
          obtain ⟨rfl, hd⟩ := List.append_inj' he rfl
          exact ⟨List.singleton_inj.1 hd, hclear⟩
        · rintro ⟨rfl, hclear⟩
          exact ⟨xs, rfl, hclear⟩
      rw [concat, concat, hs.clear_left]
    · refine iff_of_false ?_ ?_
      · rintro ⟨margin, he, -⟩
        exact absurd (List.append_inj_right' he rfl) (by decide)
      · rintro ⟨margin, he, -⟩
        refine getLast?_append_reference_ne (c := '!') (by decide) rfl out' k' ?_
        rw [he, List.getLast?_concat]

/-- Splicing does not bring together what stands apart, nor the other way round. -/
theorem apart_spliced {j k : Nat} {left right left' right' : List Char}
    (hl : Spliced j left left') (hr : Spliced k right right') (negated : Bool) :
    Apart negated left right ↔ Apart negated left' right' := by
  constructor
  · rintro ⟨hb, ha⟩
    exact ⟨(hl.sign_left negated).1 hb, hr.clear_right.1 ha⟩
  · rintro ⟨hb, ha⟩
    exact ⟨(hl.sign_left negated).2 hb, hr.clear_right.2 ha⟩

end Scan

namespace Condition

open Scan

/-- **Groups take part in the group around them.** Let a text be read. Each group but the root
stands in another group or in the whole text, which has a higher index. There the reference to it is
read with what touches it. If the group stands apart, this is a token for it, and there is a literal
for it. If it does not, the token has taken it in. -/
theorem ofText_enclosing {t : String} {c : Condition} (h : ofText t = .ok c) :
    (∀ k < c.root, ∃ p left right, StandsIn (Text.trim t.toList) k p left right) ∧
    ∀ {k p : Nat} {left right : List Char}, StandsIn (Text.trim t.toList) k p left right →
      k < p ∧ p ≤ c.root ∧ ∃ j before after ts token,
        Spliced j left before ∧ Spliced (k + 1) right after ∧
        (Text.segments ' ' (Text.trim (before ++ reference k ++ after))).mapM Token.ofChars =
          .ok ts ∧
        c.groups[p]? = some (Group.ofTokens ts) ∧ token ∈ ts ∧
        Token.ofChars (Text.pieceAround before (reference k) after) = .ok token ∧
        (∀ negated, Apart negated left right → token = .group k negated ∧
          ∃ l ∈ (Group.ofTokens ts).literals, l.negated = negated ∧ l.atom = .group k) ∧
        ((∀ negated, ¬Apart negated left right) → token.Absorbs k) := by
  obtain ⟨hbalanced, groups, -, root, -, -, hcount, -, rfl⟩ := ofText_eq_ok h
  refine ⟨fun k hk => exists_standsIn hbalanced (hcount ▸ hk), fun {k p left right} hstands => ?_⟩
  obtain ⟨⟨inner, hinner, hcontent⟩, hleft, hright, hindex⟩ := hstands
  obtain ⟨j, hp⟩ := Nat.exists_eq_add_of_le' hcontent.count_le
  have hk : k = j + left.count ')' + inner.count ')' := by
    have := count_group inner right
    rw [List.append_assoc, List.count_append] at hp
    omega
  obtain ⟨before, hbefore⟩ := hleft.exists_spliced j
  obtain ⟨within, hwithin⟩ := hinner.exists_spliced (j + left.count ')')
  obtain ⟨after, hafter⟩ := hright.exists_spliced (j + left.count ')' + inner.count ')' + 1)
  have hs := hbefore.append (.group hwithin hafter)
  rw [← List.append_assoc, ← List.append_assoc, ← hk] at hs
  obtain ⟨g, hg, hread⟩ := ofChars_of_content h hcontent hp hs
  obtain ⟨ts, token, hts, rfl, hm, ht, hapart, hno⟩ := Group.ofChars_around_reference hread
  have hlt := (List.getElem?_eq_some_iff.1 hg).1
  rw [List.length_append, List.length_singleton] at hlt
  rw [← hk] at hafter
  refine ⟨by omega, Nat.le_of_lt_succ hlt, j, before, after, ts, token, hbefore, hafter, hts, hg,
    hm, ht, fun negated ha => ?_, fun ha => ?_⟩
  · exact hapart negated ((apart_spliced hbefore hafter negated).1 ha)
  · exact hno fun negated ha' => ha negated ((apart_spliced hbefore hafter negated).2 ha')

/-- A group that is negated and stands apart, in a group that touches a word. -/
theorem ofText_enclosing_word :
    ∃ c, ofText "&x(!(&a))" = .ok c ∧
      (StandsIn (Text.trim "&x(!(&a))".toList) 0 1 ['!'] [] ∧ Apart true ['!'] [] ∧
        ∃ ts, c.groups[1]? = some (Group.ofTokens ts) ∧
          ∃ l ∈ (Group.ofTokens ts).literals, l.negated = true ∧ l.atom = .group 0) ∧
      StandsIn (Text.trim "&x(!(&a))".toList) 1 2 ['&', 'x'] [] ∧
        (∀ negated, ¬Apart negated ['&', 'x'] []) ∧
        ∃ ts, c.groups[2]? = some (Group.ofTokens ts) ∧ ∃ token ∈ ts, token.Absorbs 1 := by
  let c : Condition :=
    ⟨[⟨[.word .and "a" false]⟩, ⟨[.group .and 0 true]⟩, ⟨[.word .and "x#1" false]⟩], 2⟩
  have hc : ofText "&x(!(&a))" = .ok c := by cbv
  have htrim : Text.trim "&x(!(&a))".toList = ['&', 'x', '(', '!', '(', '&', 'a', ')', ')'] := by
    decide
  have hinner : Balanced ['&', 'a'] := balanced_of_plain ⟨by decide, by decide⟩
  have hnegated : Balanced ['!', '(', '&', 'a', ')'] := .char (by decide) (by decide) hinner.nested
  have hfirst : StandsIn (Text.trim "&x(!(&a))".toList) 0 1 ['!'] [] := by
    have htext : Text.trim "&x(!(&a))".toList =
        ['&', 'x'] ++ '(' :: ['!', '(', '&', 'a', ')'] ++ ')' :: [] := htrim
    exact ⟨⟨_, hinner, .group htext hnegated⟩, balanced_of_plain ⟨by decide, by decide⟩, .nil, rfl⟩
  have hsecond : StandsIn (Text.trim "&x(!(&a))".toList) 1 2 ['&', 'x'] [] := by
    rw [htrim]
    exact ⟨⟨_, hnegated, .whole⟩, balanced_of_plain ⟨by decide, by decide⟩, .nil, rfl⟩
  have hapart : Apart true ['!'] [] := apart_iff_touching.2 (by decide)
  have htouched : ∀ negated, ¬Apart negated ['&', 'x'] [] := by
    simp only [apart_iff_touching]
    decide
  obtain ⟨-, hall⟩ := ofText_enclosing hc
  obtain ⟨-, -, _, _, _, ts, _, -, -, -, hts, -, -, h, -⟩ := hall hfirst
  obtain ⟨-, -, _, _, _, ts', token', -, -, -, hts', hm', -, -, h'⟩ := hall hsecond
  exact ⟨c, hc, ⟨hfirst, hapart, ts, hts, (h true hapart).2⟩, hsecond, htouched, ts', hts', token',
    hm', h' htouched⟩

/-- The group of `&a` is in no literal: the root has the word `X#0` instead. -/
theorem ofText_absorbed :
    ∃ c, ofText "&x(&a)" = .ok c ∧ 0 < c.root ∧
      ∀ g ∈ c.groups, ∀ l ∈ g.literals, l.atom ≠ .group 0 := by
  let c : Condition := ⟨[⟨[.word .and "a" false]⟩, ⟨[.word .and "x#0" false]⟩], 1⟩
  have hc : ofText "&x(&a)" = .ok c := by cbv
  exact ⟨c, hc, by decide, by decide⟩

end Condition

end WordLogic
