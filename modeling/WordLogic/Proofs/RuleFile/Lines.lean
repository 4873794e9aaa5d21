import Mathlib.Data.List.Forall2
import Mathlib.Data.List.ReduceOption
import WordLogic.Proofs.RuleFile.Readers

/-!
# Rule files are read line by line

A rule file is read as a whole, by readers that go past the ends of lines between two rules. The
result is that of the lines taken one by one (`read_by_lines`): a file is read when every line says
something, it has the rules of its lines, and otherwise reading stops in the first bad line.
-/

namespace WordLogic.RuleFile

/-! ## Blanks and comments -/

theorem skipGaps_append {gap : List Char} (h : ∀ c ∈ gap, isGap c = true) (r : List Char) :
    skipGaps (gap ++ r) = skipGaps r := by
  induction gap with
  | nil => rfl
  | cons c gap ih =>
    obtain ⟨hc, hgap⟩ := List.forall_mem_cons.1 h
    rw [List.cons_append, skipGaps, if_pos hc, ih hgap]

theorem skipGaps_comment {cs line r : List Char} (h : restOfLine cs = .ok (line, r)) :
    skipGaps ('#' :: cs) = skipGaps r := by
  rw [skipGaps, if_neg (by decide), if_pos rfl]
  split
  · rename_i h'
    cases h.symm.trans h'
    rfl
  · rename_i h'
    cases h.symm.trans h'

/-- Something that is neither blank nor a comment is left. -/
theorem skipGaps_eq_self {c : Char} {cs : List Char} (hc : isGap c = false)
    (h : c = '#' → ∃ r, restOfLine cs = .error r) : skipGaps (c :: cs) = c :: cs := by
  rw [skipGaps, if_neg (by simp [hc])]
  split
  · rename_i hhash
    obtain ⟨r, hr⟩ := h hhash
    split
    · rename_i h'
      cases hr.symm.trans h'
    · rfl
  · rfl

/-! ## Whole files, rule by rule -/

theorem startRule?_congr {as bs : List Char} (h : skipGaps as = skipGaps bs) :
    startRule? as = startRule? bs := by
  rw [startRule?, startRule?, h]

/-- A rule begins with its word and a blank. -/
theorem startRule?_eq_some {cs r : List Char} (h : startRule? cs = some r) :
    ∃ sp, Spaces sp ∧ sp ≠ [] ∧ skipGaps cs = "rule".toList ++ sp ++ r := by
  rw [startRule?] at h
  obtain ⟨r₁, hword, hspaces⟩ := Option.bind_eq_some_iff.1 h
  obtain ⟨sp, hsp, hne, rfl⟩ := exists_spaces? hspaces
  refine ⟨sp, hsp, hne, ?_⟩
  rw [eq_append_of_skipWord? hword, List.append_assoc]

theorem readAll_of_startRule?_eq_none {cs : List Char} (h : startRule? cs = none) :
    readAll cs = match skipGaps cs with
      | [] => .ok []
      | r => .error ⟨r, none⟩ := by
  have hrules : readRules cs = .ok ([], cs) := by
    rw [readRules]
    split <;> simp_all
  cases hgap : skipGaps cs <;> simp [readAll, hrules, hgap]

theorem readAll_of_startRule?_eq_some {cs r : List Char} (h : startRule? cs = some r) :
    readAll cs = match readRule r with
      | .error e => .error e
      | .ok (rule, r) => (readAll r).map (rule :: ·) := by
  have hrules : readRules cs = match readRule r with
      | .error e => .error e
      | .ok (rule, r) => (readRules r).map fun (rules, r) => (rule :: rules, r) := by
    rw [readRules]
    split
    · rename_i h'
      cases h.symm.trans h'
    · rename_i h'
      cases h.symm.trans h'
      cases readRule r with
      | error e => rfl
      | ok x => cases hr : readRules x.2 <;> simp [hr, Except.map]
  rw [readAll, hrules]
  cases readRule r with
  | error e => rfl
  | ok x =>
    simp only []
    rw [readAll]
    cases readRules x.2 with
    | error e => rfl
    | ok y =>
      simp only [Except.map]
      cases skipGaps y.2 <;> rfl

/-- Blanks and comments at the start do not matter. -/
theorem readAll_congr {as bs : List Char} (h : skipGaps as = skipGaps bs) :
    readAll as = readAll bs := by
  have hstart := startRule?_congr h
  cases hs : startRule? bs with
  | none =>
    rw [readAll_of_startRule?_eq_none hs, readAll_of_startRule?_eq_none (hstart.trans hs), h]
  | some r =>
    rw [readAll_of_startRule?_eq_some hs, readAll_of_startRule?_eq_some (hstart.trans hs)]

/-! ## Lines and what follows them -/

/-- What can follow the characters of a line: nothing after the last line, `\n` after others. -/
inductive Follows : (ended : Bool) → List Char → Prop
  | finished : Follows false []
  | newline (r : List Char) : Follows true ('\n' :: r)

variable {cs rest : List Char} {ended : Bool}

theorem Ending.atLineEnd {ending : List Char} (h : Ending ended ending) (hf : Follows ended rest) :
    AtLineEnd (ending ++ rest) := by
  cases h with
  | nothing =>
    cases hf with
    | finished => exact .finished
    | newline r => exact .newline r
  | carriageReturn =>
    cases hf with
    | newline r => exact .carriageReturn r

theorem Ending.isGap {ending : List Char} (h : Ending ended ending) :
    ∀ c ∈ ending, isGap c = true := by
  cases h with
  | nothing => exact nofun
  | carriageReturn => exact List.forall_mem_singleton.2 rfl

/-- A text is cut at its first `\n` in one way only. -/
theorem append_newline_inj {as bs r r' : List Char} (ha : '\n' ∉ as) (hb : '\n' ∉ bs)
    (h : as ++ '\n' :: r = bs ++ '\n' :: r') : as = bs := by
  have hne : ∀ {l : List Char}, '\n' ∉ l → ∀ c ∈ l, decide (c ≠ '\n') = true := by
    intro l hl c hc
    apply decide_eq_true
    rintro rfl
    exact hl hc
  obtain ⟨hta, -⟩ := Text.span_append (hne ha) (by decide : decide ('\n' ≠ '\n') = false) r
  obtain ⟨htb, -⟩ := Text.span_append (hne hb) (by decide : decide ('\n' ≠ '\n') = false) r'
  rw [← hta, h, htb]

/-- A piece of a text that goes up to the end of its first line makes up that line, but for the
ending. -/
theorem exists_ending {piece r : List Char} (h : cs ++ rest = piece ++ r) (hcs : '\n' ∉ cs)
    (hf : Follows ended rest) (hpiece : '\n' ∉ piece) (hend : AtLineEnd r) :
    ∃ ending, cs = piece ++ ending ∧ Ending ended ending := by
  cases hf with
  | finished =>
    rw [List.append_nil] at h
    subst h
    cases hend with
    | finished => exact ⟨[], rfl, .nothing false⟩
    | newline => simp at hcs
    | carriageReturn => simp at hcs
  | newline r' =>
    cases hend with
    | finished =>
      rw [List.append_nil] at h
      subst h
      simp at hpiece
    | newline r =>
      obtain rfl := append_newline_inj hcs hpiece h
      exact ⟨[], (List.append_nil cs).symm, .nothing true⟩
    | carriageReturn r =>
      have hpiece' : '\n' ∉ piece ++ ['\r'] := by simp [hpiece]
      have h' : cs ++ '\n' :: r' = piece ++ ['\r'] ++ '\n' :: r := by simpa using h
      obtain rfl := append_newline_inj hcs hpiece' h'
      exact ⟨['\r'], rfl, .carriageReturn⟩

/-- A place in the first line is not behind its end. -/
theorem Within.length_le {r : List Char} (h : Within (cs ++ rest) r) (hf : Follows ended rest) :
    ∃ taken, cs ++ rest = taken ++ r ∧ taken.length ≤ cs.length := by
  obtain ⟨taken, heq, hn⟩ := h
  refine ⟨taken, heq, ?_⟩
  rcases List.append_eq_append_iff.1 heq with ⟨as, rfl, hrest⟩ | ⟨bs, rfl, -⟩
  · cases as with
    | nil => simp
    | cons a as =>
      cases hf with
      | finished => cases hrest
      | newline =>
        cases hrest
        simp at hn
  · simp

/-! ## One line -/

/-- A line that says nothing is passed over. -/
theorem skipGaps_line (h : Line.Says ⟨cs, ended⟩ none) (hcs : '\n' ∉ cs) (hf : Follows ended rest) :
    skipGaps (cs ++ rest) = skipGaps rest := by
  cases h with
  | blank hgap => exact skipGaps_append hgap rest
  | @comment gap text ending _ hgap htext hending =>
    have hn : '\n' ∉ text := fun h => hcs (by simp [h])
    have hline : restOfLine (text ++ (ending ++ rest)) = .ok (text, ending ++ rest) :=
      restOfLine_append hn htext (hending.atLineEnd hf)
    simp only [List.append_assoc, List.cons_append]
    rw [skipGaps_append hgap, skipGaps_comment hline, skipGaps_append hending.isGap]

/-- A line with a rule adds the rule to those of the lines behind it. -/
theorem readAll_rule {rule : Rule} (h : Line.Says ⟨cs, ended⟩ (some rule)) (hcs : '\n' ∉ cs)
    (hf : Follows ended rest) : readAll (cs ++ rest) = (readAll rest).map (rule :: ·) := by
  cases h with
  | @rule gap sp body ending _ _ hgap hsp hne hbody hending =>
    have hn : '\n' ∉ body := fun h => hcs (by simp [h])
    have hstart : startRule? (gap ++ ("rule".toList ++ (sp ++ (body ++ (ending ++ rest))))) =
        some (body ++ (ending ++ rest)) := by
      have hword : skipGaps ("rule".toList ++ (sp ++ (body ++ (ending ++ rest)))) =
          "rule".toList ++ (sp ++ (body ++ (ending ++ rest))) :=
        skipGaps_eq_self rfl (fun h => absurd h (by decide))
      rw [startRule?, skipGaps_append hgap, hword, skipWord?_append, Option.bind_some,
        skipSpaces?_append hsp hne (hbody.avoids_isSpace _)]
    simp only [List.append_assoc]
    rw [readAll_of_startRule?_eq_some hstart, readRule_append hbody hn (hending.atLineEnd hf)]
    simp only []
    rw [readAll_congr (skipGaps_append hending.isGap rest)]

/-- A line is good if what follows its blanks can be skipped as a comment. -/
theorem good_of_restOfLine {gap text line r : List Char} (hgap : ∀ c ∈ gap, isGap c = true)
    (htext : '\n' ∉ text) (hf : Follows ended rest)
    (h : restOfLine (text ++ rest) = .ok (line, r)) : Line.Good ⟨gap ++ '#' :: text, ended⟩ := by
  obtain ⟨heq, hn, hr, hend⟩ := restOfLine_eq_ok h
  obtain ⟨ending, rfl, hending⟩ := exists_ending heq htext hf hn hend
  refine ⟨none, ?_⟩
  simpa using Line.Says.comment hgap hr hending

/-- A line is good if what follows its blanks can be read as a rule. -/
theorem good_of_readRule {gap cs sp r r' : List Char} {rule : Rule}
    (hgap : ∀ c ∈ gap, isGap c = true) (hcs : '\n' ∉ cs) (hf : Follows ended rest)
    (hsp : Spaces sp) (hne : sp ≠ []) (hbegin : cs ++ rest = "rule".toList ++ sp ++ r)
    (h : readRule r = .ok (rule, r')) : Line.Good ⟨gap ++ cs, ended⟩ := by
  obtain ⟨body, rfl, hbody, hn, hend⟩ := readRule_eq_ok h
  rw [← List.append_assoc] at hbegin
  have hpiece : '\n' ∉ "rule".toList ++ sp ++ body := by simp [hsp.newline_notMem, hn]
  obtain ⟨ending, rfl, hending⟩ := exists_ending hbegin hcs hf hpiece hend
  refine ⟨some rule, ?_⟩
  simpa using Line.Says.rule hgap hsp hne hbody hending

/-- In a bad line reading stops. -/
theorem readAll_bad (h : ¬Line.Good ⟨cs, ended⟩) (hcs : '\n' ∉ cs) (hf : Follows ended rest) :
    ∃ e, readAll (cs ++ rest) = .error e ∧ Within (cs ++ rest) e.rest := by
  obtain ⟨gap, body, rfl, hgap, hbody⟩ :
      ∃ gap body, cs = gap ++ body ∧ (∀ c ∈ gap, isGap c = true) ∧ Avoids isGap body :=
    ⟨_, _, List.takeWhile_append_dropWhile.symm, fun _ => List.mem_takeWhile_imp,
      avoids_dropWhile _ _⟩
  cases body with
  | nil => exact absurd ⟨none, .blank (by simpa using hgap)⟩ h
  | cons c body =>
    have hgapn : '\n' ∉ gap := fun h => hcs (by simp [h])
    have hbodyn : '\n' ∉ c :: body := fun h => hcs (List.mem_append_right gap h)
    have hstop : skipGaps (c :: body ++ rest) = c :: body ++ rest := by
      refine skipGaps_eq_self (hbody c rfl) ?_
      rintro rfl
      cases hline : restOfLine (body ++ rest) with
      | error r => exact ⟨r, rfl⟩
      | ok x =>
        have htext : '\n' ∉ body := mt (List.mem_cons_of_mem _) hbodyn
        exact absurd (good_of_restOfLine hgap htext hf hline) h
    have hskip : skipGaps (gap ++ c :: body ++ rest) = c :: body ++ rest := by
      rw [List.append_assoc, skipGaps_append hgap, hstop]
    have hplace : Within (gap ++ c :: body ++ rest) (c :: body ++ rest) := by
      rw [List.append_assoc]
      exact Within.append hgapn _
    cases hstart : startRule? (gap ++ c :: body ++ rest) with
    | none =>
      refine ⟨⟨c :: body ++ rest, none⟩, ?_, hplace⟩
      rw [readAll_of_startRule?_eq_none hstart, hskip]
      rfl
    | some r =>
      rw [readAll_of_startRule?_eq_some hstart]
      obtain ⟨sp, hsp, hne, hbegin⟩ := startRule?_eq_some hstart
      rw [hskip] at hbegin
      cases hrule : readRule r with
      | error e =>
        refine ⟨e, rfl, hplace.trans (Within.trans ?_ (within_of_readRule hrule))⟩
        rw [hbegin]
        exact Within.append (by simp [hsp.newline_notMem]) r
      | ok x => exact absurd (good_of_readRule hgap hbodyn hf hsp hne hbegin hrule) h

/-- A good line adds what it says to the rules of the lines behind it. -/
theorem readAll_line {said : Option Rule} (h : Line.Says ⟨cs, ended⟩ said) (hcs : '\n' ∉ cs)
    (hf : Follows ended rest) : readAll (cs ++ rest) = (readAll rest).map (said.toList ++ ·) := by
  cases said with
  | none =>
    rw [readAll_congr (skipGaps_line h hcs hf)]
    cases readAll rest <;> rfl
  | some rule => exact readAll_rule h hcs hf

/-! ## All lines -/

theorem readAll_nil : readAll [] = .ok [] := by
  have hstart : startRule? [] = none := by
    rw [startRule?, skipGaps]
    rfl
  rw [readAll_of_startRule?_eq_none hstart, skipGaps]

theorem readAll_newline (r : List Char) : readAll ('\n' :: r) = readAll r :=
  readAll_congr (skipGaps_append (List.forall_mem_singleton.2 rfl) r)

/-- When every line says something, the rules are those that the lines say. -/
theorem readAll_of_said {text : List Char} {said : List (Option Rule)}
    (h : List.Forall₂ Line.Says (lines text) said) : readAll text = .ok said.reduceOption := by
  induction text using line_induction generalizing said with
  | last cs hcs =>
    rw [lines_last hcs, List.forall₂_cons_left_iff] at h
    obtain ⟨a, said, ha, hsaid, rfl⟩ := h
    cases List.forall₂_nil_left_iff.1 hsaid
    have hline := readAll_line ha hcs .finished
    rw [List.append_nil, readAll_nil] at hline
    rw [hline, List.reduceOption_singleton]
    exact congrArg Except.ok (List.append_nil _)
  | next cs r hcs ih =>
    rw [lines_next hcs, List.forall₂_cons_left_iff] at h
    obtain ⟨a, said, ha, hsaid, rfl⟩ := h
    rw [readAll_line ha hcs (.newline r), readAll_newline, ih hsaid, ← List.singleton_append,
      List.reduceOption_append, List.reduceOption_singleton]
    rfl

/-- Reading stops in the first bad line. -/
theorem readAll_of_first_bad {text : List Char} {i : Nat} {line : Line}
    (hi : (lines text)[i]? = some line) (hbad : ¬line.Good)
    (hgood : ∀ before ∈ (lines text).take i, before.Good) :
    ∃ e taken, readAll text = .error e ∧ text = taken ++ e.rest ∧
      lineStart (lines text) i ≤ taken.length ∧
      taken.length ≤ lineStart (lines text) i + line.chars.length := by
  induction text using line_induction generalizing i with
  | last cs hcs =>
    rw [lines_last hcs] at hi ⊢
    obtain ⟨hlt, rfl⟩ := List.getElem?_eq_some_iff.1 hi
    cases Nat.lt_one_iff.1 hlt
    obtain ⟨e, he, hplace⟩ := readAll_bad hbad hcs .finished
    obtain ⟨taken, heq, hle⟩ := hplace.length_le .finished
    rw [List.append_nil] at he heq
    exact ⟨e, taken, he, heq, Nat.zero_le _, by simpa using hle⟩
  | next cs r hcs ih =>
    rw [lines_next hcs] at hi hgood ⊢
    cases i with
    | zero =>
      cases hi
      obtain ⟨e, he, hplace⟩ := readAll_bad hbad hcs (.newline r)
      obtain ⟨taken, heq, hle⟩ := hplace.length_le (.newline r)
      exact ⟨e, taken, he, heq, Nat.zero_le _, by simpa using hle⟩
    | succ i =>
      rw [List.take_succ_cons, List.forall_mem_cons] at hgood
      obtain ⟨⟨said, hsaid⟩, hgood⟩ := hgood
      obtain ⟨e, taken, he, rfl, hlo, hhi⟩ := ih hi hgood
      refine ⟨e, cs ++ '\n' :: taken, ?_, by simp, ?_, ?_⟩
      · rw [readAll_line hsaid hcs (.newline _), readAll_newline, he]
        rfl
      all_goals
        simp only [lineStart_cons, List.length_append, List.length_cons]
        omega

/-- The lines of a text say something each, or one of them is the first that does not. -/
theorem said_or_first_bad (ls : List Line) :
    (∃ said, List.Forall₂ Line.Says ls said) ∨
      ∃ i line, ls[i]? = some line ∧ ¬line.Good ∧ ∀ before ∈ ls.take i, before.Good := by
  induction ls with
  | nil => exact .inl ⟨[], .nil⟩
  | cons line ls ih =>
    by_cases h : line.Good
    · obtain ⟨said, hsaid⟩ | ⟨i, bad, hi, hbad, hgood⟩ := ih
      · obtain ⟨a, ha⟩ := h
        exact .inl ⟨a :: said, .cons ha hsaid⟩
      · exact .inr ⟨i + 1, bad, hi, hbad, List.forall_mem_cons.2 ⟨h, hgood⟩⟩
    · exact .inr ⟨0, line, rfl, h, nofun⟩

theorem good_of_said {ls : List Line} {said : List (Option Rule)}
    (h : List.Forall₂ Line.Says ls said) : ∀ line ∈ ls, line.Good := by
  induction h with
  | nil => exact nofun
  | cons ha _ ih => exact List.forall_mem_cons.2 ⟨⟨_, ha⟩, ih⟩

theorem read_eq_ok_iff {text : String} {rules : List Rule} :
    read text = .ok rules ↔ readAll text.toList = .ok rules := by
  unfold read
  split <;> simp [*]

/-- A rule file is read line by line: reading succeeds exactly when every line is good, with the
rules that the lines say in their order, and fails at a place in the first bad line otherwise. -/
theorem read_by_lines (text : String) :
    ((∃ rules, read text = .ok rules) ↔ ∀ line ∈ lines text.toList, line.Good) ∧
      (∀ rules, read text = .ok rules ↔
        ∃ said, List.Forall₂ Line.Says (lines text.toList) said ∧ rules = said.reduceOption) ∧
      ∀ i line, (lines text.toList)[i]? = some line → ¬line.Good →
        (∀ before ∈ (lines text.toList).take i, before.Good) →
        ∃ e, read text = .error e ∧ e.text = text.toList ∧
          lineStart (lines text.toList) i ≤ e.offset ∧
          e.offset ≤ lineStart (lines text.toList) i + line.chars.length := by
  have hrules : ∀ rules, read text = .ok rules ↔
      ∃ said, List.Forall₂ Line.Says (lines text.toList) said ∧ rules = said.reduceOption := by
    intro rules
    rw [read_eq_ok_iff]
    constructor
    · intro h
      obtain ⟨said, hsaid⟩ | ⟨i, line, hi, hbad, hgood⟩ := said_or_first_bad (lines text.toList)
      · cases h.symm.trans (readAll_of_said hsaid)
        exact ⟨said, hsaid, rfl⟩
      · obtain ⟨e, _, he, -⟩ := readAll_of_first_bad hi hbad hgood
        cases h.symm.trans he
    · rintro ⟨said, hsaid, rfl⟩
      exact readAll_of_said hsaid
  refine ⟨⟨?_, fun hgood => ?_⟩, hrules, fun i line hi hbad hgood => ?_⟩
  · rintro ⟨rules, h⟩
    obtain ⟨said, hsaid, -⟩ := (hrules rules).1 h
    exact good_of_said hsaid
  · obtain ⟨said, hsaid⟩ | ⟨i, line, hi, hbad, -⟩ := said_or_first_bad (lines text.toList)
    · exact ⟨_, (hrules _).2 ⟨said, hsaid, rfl⟩⟩
    · exact absurd (hgood line (List.mem_of_getElem? hi)) hbad
  · obtain ⟨e, taken, he, htaken, hlo, hhi⟩ := readAll_of_first_bad hi hbad hgood
    refine ⟨⟨text.toList, text.toList.length - e.rest.length, e.expected⟩, ?_, rfl, ?_⟩
    · rw [read, he]
    · have hlength : text.toList.length - e.rest.length = taken.length := by
        rw [htaken, List.length_append, Nat.add_sub_cancel]
      exact hlength.symm ▸ ⟨hlo, hhi⟩

/-- A comment and a rule are read; in a second line that is no rule reading stops. -/
theorem read_by_lines_pets :
    read "# pets\nrule 4 (priority -2): &cat \r\n" = .ok [⟨4, -2, "&cat"⟩] ∧
      ∃ e, read "# pets\nrule 4\nrule 5: &dog" = .error e ∧ 7 ≤ e.offset ∧ e.offset ≤ 13 := by
  have hcomment : Line.Says ⟨"# pets".toList, true⟩ none :=
    @Line.Says.comment [] " pets".toList [] true nofun (by decide) (.nothing true)
  have hann : PriorityPart " (priority -2)".toList (-2) :=
    @PriorityPart.present [' '] [] [' '] [] ['-', '2'] (-2) (by decide) (by decide) (by decide)
      (by decide) (.minus ⟨List.forall_mem_singleton.2 rfl, '2', [], rfl, by decide⟩) (by decide)
  have hbody : RuleBody "4 (priority -2): &cat ".toList ⟨4, -2, "&cat"⟩ :=
    @RuleBody.intro ['4'] " (priority -2)".toList [] " &cat ".toList 4 (-2)
      (.unsigned ⟨List.forall_mem_singleton.2 rfl, '4', [], rfl, by decide⟩) hann (by decide)
      (by decide) (by decide)
  have hrule : Line.Says ⟨"rule 4 (priority -2): &cat \r".toList, true⟩ (some ⟨4, -2, "&cat"⟩) :=
    @Line.Says.rule [] [' '] "4 (priority -2): &cat ".toList ['\r'] true _ nofun (by decide)
      (by decide) hbody .carriageReturn
  have hlines : lines "# pets\nrule 4 (priority -2): &cat \r\n".toList =
      [⟨"# pets".toList, true⟩, ⟨"rule 4 (priority -2): &cat \r".toList, true⟩, ⟨[], false⟩] := by
    decide
  have hbad : ¬Line.Good ⟨"rule 4".toList, true⟩ :=
    @Line.not_good _ 'r' (by decide) rfl (by decide) (by decide)
  constructor
  · refine ((read_by_lines _).2.1 _).2 ⟨[none, some ⟨4, -2, "&cat"⟩, none], ?_, rfl⟩
    rw [hlines]
    exact .cons hcomment (.cons hrule (.cons (.blank nofun) .nil))
  · obtain ⟨e, he, -, hlo, hhi⟩ := (read_by_lines "# pets\nrule 4\nrule 5: &dog").2.2 1
      ⟨"rule 4".toList, true⟩ (by decide) hbad (List.forall_mem_singleton.2 ⟨none, hcomment⟩)
    exact ⟨e, he, hlo, hhi⟩

end WordLogic.RuleFile
