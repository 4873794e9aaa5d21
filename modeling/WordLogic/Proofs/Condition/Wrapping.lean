import Mathlib
import WordLogic.Proofs.Condition.Nesting
import WordLogic.Proofs.Condition.Truth
import WordLogic.Proofs.Condition.WellFormed
import WordLogic.Proofs.Group.Tokens
import WordLogic.Proofs.Text.Marks

/-!
# A text in parentheses

Parentheses around a rule text that is read add one group, which refers to the root of the text, and
a `!` before them negates it. So the condition in parentheses holds when the condition does, and
each `!` turns the answer round (`ofText_wrapped`). Blanks at the ends of the text, references it
contains and bars without a partner make no difference: what is between the parentheses is read as
it was read alone.
-/

namespace WordLogic

/-- A rule text in parentheses. -/
def wrapText (negated : Bool) (t : String) : String := (if negated then "!(" else "(") ++ t ++ ")"

/-- A condition with one more group, which refers to the root and is the new root. -/
def Condition.wrap (negated : Bool) (c : Condition) : Condition :=
  ⟨c.groups ++ [⟨[.group .and c.root negated]⟩], c.root + 1⟩

theorem toList_wrapText (negated : Bool) (t : String) :
    (wrapText negated t).toList = Token.sign negated ++ '(' :: t.toList ++ [')'] := by
  cases negated <;> simp [wrapText, Token.sign]

/-- Blanks around a text are trimmed with those of the text. -/
theorem Text.trim_blanks {left right : List Char} (hl : ∀ c ∈ left, isBlank c = true)
    (hr : ∀ c ∈ right, isBlank c = true) (cs : List Char) :
    trim (left ++ cs ++ right) = trim cs := by
  obtain ⟨left', right', he, hl', hr'⟩ := exists_trim cs
  have hsplit : left ++ cs ++ right = (left ++ left') ++ trim cs ++ (right' ++ right) := by
    conv => lhs; rw [he]
    simp only [List.append_assoc]
  rw [hsplit]
  exact trim_margins (List.forall_mem_append.2 ⟨hl, hl'⟩) (List.forall_mem_append.2 ⟨hr', hr⟩)
    (fun _ => head?_trim) fun _ => getLast?_trim

theorem Scan.Plain.advance {cs : List Char} (h : Plain cs) (st : Scan) (rest : List Char) :
    st.advance cs rest = .ok { st with current := st.current ++ cs } :=
  advance_plain h.1 h.2 st rest

/-- A reference alone is a group of one literal. -/
theorem Group.ofChars_reference {available k : Nat} (hk : k < available)
    (hb : available ≤ Token.indexBound) (negated : Bool) :
    ofChars available (Token.sign negated ++ Condition.reference k) =
      .ok ⟨[.group .and k negated]⟩ := by
  have hfits : ∀ t ∈ [Token.group k negated], t.Fits available :=
    List.forall_mem_singleton.2 (Token.group_fits hk negated)
  have h := ofChars_join hb hfits ⟨_, List.mem_singleton_self _, nofun⟩
  rwa [List.map_singleton, Text.joinSegments, List.intercalate_singleton] at h

namespace Condition

open Scan

/-- Where a text was read, it is read between parentheses, and leaves a reference to what was its
root. -/
theorem ofText_wrap {t : String} {c : Condition} (h : ofText t = .ok c) (negated : Bool)
    (hb : c.root < 2 ^ 64) : ofText (wrapText negated t) = .ok (c.wrap negated) := by
  obtain ⟨-, groups, out, root, -, hscan, -, hroot, rfl⟩ := Scan.ofText_eq_ok h
  obtain ⟨left, right, ht, hl, hr⟩ := Text.exists_trim t.toList
  have hsign := (Token.sign_solid negated).plain
  have htrim : Text.trim (wrapText negated t).toList = (wrapText negated t).toList := by
    rw [toList_wrapText]
    refine Text.trim_eq_self (fun c hc => ?_) fun c hc => ?_
    · cases negated <;> cases hc <;> rfl
    · rw [List.getLast?_concat] at hc
      cases hc
      rfl
  have hpieces : (wrapText negated t).toList = Token.sign negated ++
      (['('] ++ (left ++ (Text.trim t.toList ++ (right ++ [')'])))) := by
    rw [toList_wrapText]
    conv => lhs; rw [ht]
    simp
  have hinner : Group.ofChars groups.length (left ++ out ++ right) = .ok root := by
    rw [← hroot, Group.ofChars, Group.ofChars, Text.trim_blanks hl hr]
  have hclose : (Scan.mk groups [Token.sign negated] (left ++ out ++ right)).advance [')'] [] =
      .ok ⟨groups ++ [root], [], Token.sign negated ++ reference groups.length⟩ := by
    rw [advance_closing, close]
    simp only [hinner]
  have hall : start.advance (wrapText negated t).toList [] =
      .ok ⟨groups ++ [root], [], Token.sign negated ++ reference groups.length⟩ := by
    rw [hpieces]
    refine advance_trans (hsign.advance _ _) (advance_trans (advance_open _ _)
      (advance_trans ((plain_of_blanks hl).advance _ _) (advance_trans (hscan _ _ _)
        (advance_trans ((plain_of_blanks hr).advance _ _) hclose))))
  rw [ofText_eq_run, htrim, run, hall]
  have hlast : Group.ofChars (groups ++ [root]).length
      (Token.sign negated ++ reference groups.length) = .ok ⟨[.group .and groups.length negated]⟩ :=
    Group.ofChars_reference (by simp) (by rw [List.length_append]; exact hb) negated
  simp only [finish, hlast, wrap]
  simp

/-- The root of a text that is read is its last group. -/
theorem length_groups_of_ofText {t : String} {c : Condition} (h : ofText t = .ok c) :
    c.groups.length = c.root + 1 := by
  obtain ⟨-, groups, out, root, -, -, -, -, rfl⟩ := Scan.ofText_eq_ok h
  rw [List.length_append, List.length_singleton]

/-- The group that is added is true when the root is, or when it is not. -/
theorem isTrue_wrap {c : Condition} {negated : Bool} (hb : Backward (c.wrap negated).groups)
    (hlast : c.groups.length = c.root + 1) (s : Sentence) :
    isTrue (c.wrap negated).groups s (c.wrap negated).root =
      (isTrue c.groups s c.root != negated) := by
  have hroot : (c.wrap negated).groups[(c.wrap negated).root]? =
      some ⟨[.group .and c.root negated]⟩ := by
    rw [wrap, ← hlast, List.getElem?_concat_length]
  rw [isTrue_eq hb hroot]
  have hearlier : isTrue (c.wrap negated).groups s c.root = isTrue c.groups s c.root :=
    isTrue_append (by omega) _
  simp [Group.isTrue, Group.clauses, Clause.ofLiterals, Clause.isTrue, Literal.isTrue,
    Literal.group, hearlier]

/-- A condition that is read holds when its root is true. -/
theorem holds_of_ofText {t : String} {c : Condition} (h : ofText t = .ok c) (s : Sentence) :
    c.holds s = .ok (isTrue c.groups s c.root) :=
  groupHolds_eq_ok (ofText_wellFormed h).backward (ofText_wellFormed h).root_lt s

theorem root_wrap (signs : List Bool) (c : Condition) :
    (signs.foldr wrap c).root = c.root + signs.length := by
  induction signs with
  | nil => rfl
  | cons negated signs ih =>
    rw [List.foldr_cons, wrap, ih, List.length_cons]
    rfl

/-- A `!` turns the answer round. -/
theorem not_repeat_count (negated : Bool) (signs : List Bool) (b : Bool) :
    Nat.repeat not ((negated :: signs).count true) b =
      (Nat.repeat not (signs.count true) b != negated) := by
  cases negated with
  | true =>
    rw [List.count_cons_self, Nat.repeat, Bool.bne_true]
  | false =>
    rw [List.count_cons_of_ne (by decide), Bool.bne_false]

/-- **Parentheses around a text.** Let a text be read. Then it is also read in any number of
parentheses, each pair with a `!` in front or without, so long as a reference can be written to
every group. Each pair adds one group, a reference to the root so far, and is the new root. For
every sentence the answer is that of the text, turned round once for each `!`. -/
theorem ofText_wrapped {t : String} {c : Condition} (h : ofText t = .ok c) (signs : List Bool)
    (hb : c.root + signs.length ≤ 2 ^ 64) :
    ofText (signs.foldr wrapText t) = .ok (signs.foldr wrap c) ∧
      ∀ s, ∃ b, c.holds s = .ok b ∧
        (signs.foldr wrap c).holds s = .ok (Nat.repeat not (signs.count true) b) := by
  induction signs with
  | nil => exact ⟨h, fun s => ⟨_, holds_of_ofText h s, holds_of_ofText h s⟩⟩
  | cons negated signs ih =>
    rw [List.length_cons] at hb
    obtain ⟨hread, hholds⟩ := ih (by omega)
    have hwrap := ofText_wrap hread negated (by rw [root_wrap]; omega)
    refine ⟨hwrap, fun s => ?_⟩
    obtain ⟨b, hc, hinner⟩ := hholds s
    refine ⟨b, hc, ?_⟩
    rw [holds_of_ofText hread, Except.ok.injEq] at hinner
    rw [List.foldr_cons, holds_of_ofText hwrap, not_repeat_count, ← hinner,
      isTrue_wrap (ofText_wellFormed hwrap).backward (length_groups_of_ofText hread)]

/-- A text with blanks around it, a reference of its own and a bar without a partner, in three pairs
of parentheses, two of them negated. -/
theorem ofText_wrapped_three :
    ∃ c, ofText "\t(&a | !&b[s]) #0 | " = .ok c ∧ c.root + 3 ≤ 2 ^ 64 ∧
      ofText "!((!(\t(&a | !&b[s]) #0 | )))" = .ok ([true, false, true].foldr wrap c) ∧
      c.holds (Sentence.ofText "bs") = .ok false ∧
      ([true, false, true].foldr wrap c).holds (Sentence.ofText "bs") = .ok false := by
  let c : Condition :=
    ⟨[⟨[.word .or "a" false, .word .and "b" true, .word .and "bs" true]⟩,
      ⟨[.group .and 0 false, .group .or 0 false]⟩], 1⟩
  have hc : ofText "\t(&a | !&b[s]) #0 | " = .ok c := by cbv
  have hfalse : c.holds (Sentence.ofText "bs") = .ok false := by cbv
  have hb : c.root + [true, false, true].length ≤ 2 ^ 64 := by decide
  obtain ⟨hread, hholds⟩ := ofText_wrapped hc [true, false, true] hb
  obtain ⟨b, hcb, hwrapped⟩ := hholds (Sentence.ofText "bs")
  rw [hfalse] at hcb
  cases hcb
  exact ⟨c, hc, hb, hread, hfalse, hwrapped⟩

end Condition

end WordLogic
