import Mathlib
import WordLogic.Proofs.Group.Display

/-!
# Displays are read back

Each group of a rule text that is read has a display in rule syntax. Read with the groups before it,
the display gives a group with the same tests, and for every sentence the same answer
(`ofText_display`), but for two cases. A run of alternatives that ends in a reference takes in the
literal after it (`ofText_display_open`), and blanks at the end of a display are not read.
-/

namespace WordLogic

/-! ## Truth depends on what the literals refer to -/

section Congr

variable {s : Sentence} {value value' : Nat → Bool}

theorem Literal.isTrue_congr {l : Literal} (h : ∀ k, l.atom = .group k → value k = value' k) :
    l.isTrue s value = l.isTrue s value' := by
  unfold isTrue
  cases ha : l.atom with
  | word w => rfl
  | group k => simp only [h k ha]

theorem Clause.isTrue_congr {c : Clause}
    (h : ∀ l ∈ c.literals, ∀ k, l.atom = .group k → value k = value' k) :
    c.isTrue s value = c.isTrue s value' := by
  cases c with
  | single l => exact Literal.isTrue_congr (h l (List.mem_singleton_self l))
  | anyOf ls =>
    rw [isTrue, isTrue, Bool.eq_iff_iff, List.any_eq_true, List.any_eq_true]
    refine exists_congr fun l => and_congr_right fun hl => ?_
    rw [Literal.isTrue_congr (h l hl)]

theorem Group.isTrue_congr {g : Group}
    (h : ∀ l ∈ g.literals, ∀ k, l.atom = .group k → value k = value' k) :
    g.isTrue s value = g.isTrue s value' := by
  rw [isTrue, isTrue, Bool.eq_iff_iff, List.all_eq_true, List.all_eq_true]
  refine forall₂_congr fun c hc => ?_
  rw [Clause.isTrue_congr fun l hl => h l (mem_literals hc hl)]

end Congr

namespace Condition

variable {c : Condition} {k : Nat} {g g' : Group}

/-! ## A group in the place of another -/

/-- The condition up to a group, with another group in its place. -/
def upTo (c : Condition) (k : Nat) (g : Group) : Condition := ⟨c.groups.take k ++ [g], k⟩

theorem length_take (hg : c.groups[k]? = some g) : (c.groups.take k).length = k := by
  have := (List.getElem?_eq_some_iff.1 hg).1
  rw [List.length_take]
  omega

/-- The group in the place of another may refer to the same groups. -/
theorem upTo_backward (hb : Backward c.groups) (hg : c.groups[k]? = some g)
    (hrefs : ∀ l ∈ g'.literals, ∃ l₀ ∈ g.literals, l.atom = l₀.atom) :
    Backward (c.upTo k g').groups := by
  refine forall_getElem?_concat (fun i g₀ hi => ?_) fun l hl j hj => ?_
  · rw [List.getElem?_take] at hi
    split at hi
    · exact hb i g₀ hi
    · cases hi
  · obtain ⟨l₀, hl₀, ha⟩ := hrefs l hl
    rw [length_take hg]
    exact hb k g hg l₀ hl₀ j (ha ▸ hj)

/-- A group is true in the place of another when it has the same truth there. -/
theorem groupHolds_upTo (hb : Backward c.groups) (hg : c.groups[k]? = some g)
    (hrefs : ∀ l ∈ g'.literals, ∃ l₀ ∈ g.literals, l.atom = l₀.atom)
    (htrue : ∀ s value, g'.isTrue s value = g.isTrue s value) (s : Sentence) :
    ∃ b, c.groupHolds k s = .ok b ∧ (c.upTo k g').groupHolds k s = .ok b := by
  have hlen := length_take hg
  have hb' : Backward (c.upTo k g').groups := upTo_backward hb hg hrefs
  have hlast : (c.upTo k g').groups[k]? = some g' := by
    show (c.groups.take k ++ [g'])[k]? = some g'
    rw [List.getElem?_append_right (by omega), hlen, Nat.sub_self]
    rfl
  have hearlier : ∀ j < k, isTrue (c.upTo k g').groups s j = isTrue c.groups s j := by
    intro j hj
    conv => rhs; rw [← List.take_append_drop k c.groups, isTrue_append (by omega)]
    exact isTrue_append (by omega) _
  refine ⟨isTrue c.groups s k, groupHolds_eq_ok hb (List.getElem?_eq_some_iff.1 hg).1 s, ?_⟩
  rw [groupHolds_eq_ok hb' (List.getElem?_eq_some_iff.1 hlast).1, isTrue_eq hb' hlast, htrue,
    isTrue_eq hb hg, Group.isTrue_congr fun l hl j hj => hearlier j (hb k g hg l hl j hj)]

/-! ## Displays -/

/-- **A display is read back.** Let a rule text be read, and take a group of it whose display has no
blank at its end. Read with the groups before it, the display gives a group with the same tests in
the same order. If no clause follows a run of alternatives that ends in a reference, the two groups
hold for the same sentences. -/
theorem ofText_display {t : String} (h : ofText t = .ok c) (hg : c.groups[k]? = some g)
    (hend : ∀ ch, g.render.toList.getLast? = some ch → Text.isBlank ch = false) :
    ∃ g', Group.ofChars k g.render.toList = .ok g' ∧
      g'.literals.map (fun l => (l.negated, l.atom)) =
        g.literals.map (fun l => (l.negated, l.atom)) ∧
      (g.clauses.IsChain (fun d _ => d.isOpen = false) →
        ∀ s, ∃ b, c.groupHolds k s = .ok b ∧ (c.upTo k g').groupHolds k s = .ok b) := by
  have hw := ofText_wellFormed h
  have hne := hw.literals_ne_nil g (List.mem_of_getElem? hg)
  have hup : ∀ l ∈ g.literals, l.IsUpper := by
    intro l hl w ha
    have hfits := hw.fits k g hg l hl
    rw [ha] at hfits
    exact hfits.2
  have hlegible : ∀ l ∈ g.literals, l.token.Legible k :=
    (ofText_groups (fun _ _ _ => Group.tokens_of_ofChars) h).2 k g hg
  have htests : (Group.readBack .and g.clauses).map (fun l => (l.negated, l.atom)) =
      g.literals.map fun l => (l.negated, l.atom) := by
    rw [Group.tests_readBack, Group.clauses, Clause.flatMap_literals_ofLiterals]
  have hrefs : ∀ l ∈ Group.readBack .and g.clauses, ∃ l₀ ∈ g.literals, l.atom = l₀.atom := by
    intro l hl
    have hm := List.mem_map_of_mem (f := fun l : Literal => (l.negated, l.atom)) hl
    rw [htests] at hm
    obtain ⟨l₀, hl₀, he⟩ := List.mem_map.1 hm
    exact ⟨l₀, hl₀, (congrArg Prod.snd he).symm⟩
  exact ⟨_, Group.ofChars_display hne hup hlegible hend, htests, fun hclosed s =>
    groupHolds_upTo hw.backward hg hrefs (fun s value => Group.isTrue_readBack hclosed s value) s⟩

/-- A run with a reference inside, and a demand on each side of it. -/
theorem ofText_display_run :
    ∃ c g g', ofText "(&b) &x | | #0 &d !&e[s]" = .ok c ∧ c.groups[1]? = some g ∧
      g.render = "#0 &X | #0 | &D !&E !&ES" ∧ Group.ofChars 1 g.render.toList = .ok g' ∧
      ∀ s, ∃ b, c.groupHolds 1 s = .ok b ∧ (c.upTo 1 g').groupHolds 1 s = .ok b := by
  let g : Group := ⟨[.group .and 0 false, .word .or "x" false, .group .or 0 false,
    .word .or "d" false, .word .and "e" true, .word .and "es" true]⟩
  let c : Condition := ⟨[⟨[.word .and "b" false]⟩, g], 1⟩
  have hc : ofText "(&b) &x | | #0 &d !&e[s]" = .ok c := by cbv
  have hrender : g.render = "#0 &X | #0 | &D !&E !&ES" := by cbv
  have hend : ∀ ch, g.render.toList.getLast? = some ch → Text.isBlank ch = false := by
    rw [hrender]
    rintro ch ⟨⟩
    decide
  have hclosed : g.clauses.IsChain fun d _ => d.isOpen = false := by decide
  obtain ⟨g', hread, -, hholds⟩ := ofText_display hc (k := 1) rfl hend
  exact ⟨c, g, g', hc, rfl, hrender, hread, hholds hclosed⟩

/-- The run `&A | #0` takes in the literal after it: the root of `&a | (&b) !&c[s]` fails for a
sentence with `a` and `c`, and what is read from its display holds. -/
theorem ofText_display_open :
    ∃ c g g', ofText "&a | (&b) !&c[s]" = .ok c ∧ c.groups[1]? = some g ∧
      g.render = "&A | #0 !&C !&CS" ∧ Group.ofChars 1 g.render.toList = .ok g' ∧
      c.groupHolds 1 (Sentence.ofText "a c") = .ok false ∧
      (c.upTo 1 g').groupHolds 1 (Sentence.ofText "a c") = .ok true := by
  let g : Group := ⟨[.word .or "a" false, .group .or 0 false, .word .and "c" true,
    .word .and "cs" true]⟩
  let g' : Group := ⟨[.word .or "a" false, .group .or 0 false, .word .or "c" true,
    .word .and "cs" true]⟩
  let c : Condition := ⟨[⟨[.word .and "b" false]⟩, g], 1⟩
  have hc : ofText "&a | (&b) !&c[s]" = .ok c := by cbv
  have hrender : g.render = "&A | #0 !&C !&CS" := by cbv
  have hread : Group.ofChars 1 "&A | #0 !&C !&CS".toList = .ok g' := by cbv
  exact ⟨c, g, g', hc, rfl, hrender, hrender ▸ hread, by cbv, by cbv⟩

/-- A tab at the end of a word is in the display, and is not read: nothing is left of the word. -/
example :
    (Group.ofChars 0 "&\t |".toList = .ok ⟨[.word .or "\t" false]⟩) ∧
      (Group.mk [.word .or "\t" false]).render = "&\t" ∧
      Group.ofChars 0 "&\t".toList = .error (.unknownToken "&") := by
  refine ⟨?_, ?_, ?_⟩ <;> cbv

end Condition

end WordLogic
