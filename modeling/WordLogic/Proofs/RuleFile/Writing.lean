import Mathlib
import WordLogic.Proofs.RuleFile.Lines

/-!
# Writing rule files

A rule is written on a line of its own, `rule 4 (priority -2): &cat | &dog`; the annotation may be
left out when the priority is 0. Blank lines and comments may stand anywhere between the rules, and
a line ends with `\n` or `\r\n`, the last one with nothing if need be (`WrittenFile`).

* `numeral_toString`: a number that is printed is a number that can be read.
* `Row.says_of_ending`: what is written on a line is what the line says.
* `read_write`: hence a file that is written is read as the rules that were written.
-/

namespace WordLogic

/-- The text of the rule can stand on a line: it is not empty, no blank is at its ends, and it does
not end the line. -/
structure Rule.Writable (r : Rule) : Prop where
  ne_nil : r.text.toList ≠ []
  trimmed : Text.trim r.text.toList = r.text.toList
  newline_notMem : '\n' ∉ r.text.toList
  return_notMem : '\r' ∉ r.text.toList

/-- The rule on a line, with its priority or without. -/
def Rule.line (r : Rule) (annotated : Bool) : String :=
  "rule " ++ toString r.id ++
    (if annotated then " (priority " ++ toString r.priority ++ ")" else "") ++ ": " ++ r.text

namespace RuleFile

/-! ## Numbers -/

theorem nonzeroLed_toDigits {n : Nat} (h : 0 < n) : NonzeroLed (Nat.toDigits 10 n) := by
  refine ⟨fun c hc => Nat.isDigit_of_mem_toDigits (by decide) (by decide) hc, ?_⟩
  induction n using Nat.strongRecOn with
  | ind n ih =>
    rcases Nat.lt_or_ge n 10 with hlt | hge
    · rw [Nat.toDigits_of_lt_base hlt]
      refine ⟨_, [], rfl, ?_⟩
      interval_cases n <;> decide
    · obtain ⟨d, ds, hds, hd⟩ := ih (n / 10) (by omega) (by omega)
      rw [Nat.toDigits_of_base_le (by decide) hge, hds]
      exact ⟨d, _, rfl, hd⟩

theorem numeral_repr (i : Int) : Numeral (toString i).toList i := by
  match i with
  | .ofNat 0 => exact .zero
  | .ofNat (n + 1) =>
    have h := Numeral.unsigned (nonzeroLed_toDigits n.succ_pos)
    rw [Nat.ofDigitChars_ten_toDigits] at h
    have hdigits : (toString (Int.ofNat (n + 1))).toList = Nat.toDigits 10 (n + 1) :=
      Nat.toList_repr
    rwa [hdigits]
  | .negSucc n =>
    have h := Numeral.minus (nonzeroLed_toDigits n.succ_pos)
    rw [Nat.ofDigitChars_ten_toDigits] at h
    have hdigits : (toString (Int.negSucc n)).toList = '-' :: Nat.toDigits 10 (n + 1) := by
      change ("-" ++ Nat.repr (n + 1)).toList = _
      rw [String.toList_append, Nat.toList_repr]
      rfl
    rwa [hdigits]

/-- A number that is printed writes the number. -/
theorem numeral_toString (n : Int32) : Numeral (toString n).toList n.toInt :=
  numeral_repr n.toInt

/-! ## Lines -/

/-- A line of a rule file: blanks, a comment, or a rule. The priority of a rule may be left out if
it is 0. -/
inductive Row
  | blank (chars : List Char) (h : Spaces chars)
  | comment (text : List Char) (hn : '\n' ∉ text) (hr : '\r' ∉ text)
  | rule (rule : Rule) (annotated : Bool) (h : rule.Writable)
      (hzero : annotated = false → rule.priority = 0)

namespace Row

/-- The characters of the line. -/
def chars : Row → List Char
  | .blank cs _ => cs
  | .comment text _ _ => '#' :: text
  | .rule r annotated _ _ => (r.line annotated).toList

/-- The rule of the line, if it has one. -/
def rule? : Row → Option Rule
  | .rule r _ _ _ => some r
  | _ => none

end Row

/-- The annotation that is written tells the priority, and so does leaving it out. -/
theorem priorityPart_written {r : Rule} {annotated : Bool}
    (hzero : annotated = false → r.priority = 0) :
    PriorityPart (if annotated then " (priority " ++ toString r.priority ++ ")" else "").toList
      r.priority := by
  cases annotated with
  | true =>
    have hpart : PriorityPart ([' '] ++ '(' :: [] ++ "priority".toList ++ [' '] ++
        (toString r.priority).toList ++ [] ++ [')']) r.priority :=
      .present (by decide) nofun (by decide) (by decide) (numeral_toString r.priority) nofun
    simpa using hpart
  | false =>
    rw [hzero rfl]
    exact .absent

/-- What is written behind the word `rule` is what the grammar wants there. -/
theorem exists_ruleBody {r : Rule} (h : r.Writable) {annotated : Bool}
    (hzero : annotated = false → r.priority = 0) :
    ∃ body, (r.line annotated).toList = "rule".toList ++ [' '] ++ body ∧ '\n' ∉ body ∧
      RuleBody body r := by
  have hnumber := numeral_toString r.id
  have hann := priorityPart_written hzero
  have htrim : Text.trim (' ' :: r.text.toList) = r.text.toList := h.trimmed
  have hreturn : '\r' ∉ ' ' :: r.text.toList := by simp [h.return_notMem]
  have hblank : Text.trim (' ' :: r.text.toList) ≠ [] := by
    rw [htrim]
    exact h.ne_nil
  have hbody := RuleBody.intro hnumber hann (nofun : Spaces []) hreturn hblank
  rw [htrim, String.ofList_toList, List.append_nil] at hbody
  refine ⟨_, by simp [Rule.line], ?_, hbody⟩
  simp [hnumber.newline_notMem, hann.newline_notMem, h.newline_notMem]

/-- A blank inside a line can stand between rules too. -/
theorem Spaces.isGap {sp : List Char} (h : Spaces sp) : ∀ c ∈ sp, isGap c = true := by
  intro c hc
  rcases Bool.or_eq_true_iff.1 (h c hc) with heq | heq <;> rw [eq_of_beq heq] <;> rfl

namespace Row

/-- What is written on a line does not end it. -/
theorem newline_notMem (row : Row) : '\n' ∉ row.chars := by
  cases row with
  | blank cs h => exact h.newline_notMem
  | comment text hn hr => simp [chars, hn]
  | rule r annotated h hzero =>
    obtain ⟨body, heq, hn, -⟩ := exists_ruleBody h hzero
    rw [chars, heq]
    simp [hn]

/-- A line says what is written on it. -/
theorem says_of_ending (row : Row) {ended : Bool} {ending : List Char} (h : Ending ended ending) :
    Line.Says ⟨row.chars ++ ending, ended⟩ row.rule? := by
  cases row with
  | blank cs hsp => exact .blank (List.forall_mem_append.2 ⟨hsp.isGap, h.isGap⟩)
  | comment text hn hr => exact @Line.Says.comment [] text ending ended (List.forall_mem_nil _) hr h
  | rule r annotated hw hzero =>
    obtain ⟨body, heq, -, hbody⟩ := exists_ruleBody hw hzero
    rw [chars, heq]
    exact @Line.Says.rule [] [' '] body ending ended r (List.forall_mem_nil _) (by decide)
      (by decide) hbody h

end Row

/-! ## Files -/

/-- The end of a line: `\n`, or `\r` and `\n`. -/
inductive LineEnding
  | newline
  | carriageReturn
deriving Repr, DecidableEq

/-- What stands before the `\n`. -/
def LineEnding.before : LineEnding → List Char
  | .newline => []
  | .carriageReturn => ['\r']

theorem LineEnding.ending (e : LineEnding) : Ending true e.before := by
  cases e with
  | newline => exact .nothing true
  | carriageReturn => exact .carriageReturn

theorem LineEnding.newline_notMem (e : LineEnding) : '\n' ∉ e.before := by
  cases e <;> decide

/-- A rule file that is written: lines with their ends, and a last line without one, which may be
empty. -/
structure WrittenFile where
  lines : List (Row × LineEnding)
  last : Row

namespace WrittenFile

/-- The lines, the last one included. -/
def rows (file : WrittenFile) : List Row := file.lines.map Prod.fst ++ [file.last]

/-- The rules on the lines. -/
def rules (file : WrittenFile) : List Rule := file.rows.filterMap Row.rule?

/-- The characters of the file. -/
def chars (file : WrittenFile) : List Char :=
  (file.lines.flatMap fun (row, e) => row.chars ++ e.before ++ ['\n']) ++ file.last.chars

/-- The text of the file. -/
def text (file : WrittenFile) : String := String.ofList file.chars

/-- The lines of the text say what is written on them. -/
theorem said_by_lines (file : WrittenFile) :
    List.Forall₂ Line.Says (RuleFile.lines file.chars) (file.rows.map Row.rule?) := by
  obtain ⟨ls, last⟩ := file
  induction ls with
  | nil =>
    have hlines : RuleFile.lines (chars ⟨[], last⟩) = [⟨last.chars, false⟩] :=
      lines_last last.newline_notMem
    have hlast := last.says_of_ending (.nothing false)
    rw [List.append_nil] at hlast
    rw [hlines]
    exact .cons hlast .nil
  | cons line ls ih =>
    obtain ⟨row, e⟩ := line
    have hchars : chars ⟨(row, e) :: ls, last⟩ =
        row.chars ++ e.before ++ '\n' :: chars ⟨ls, last⟩ := by
      simp [chars]
    have hn : '\n' ∉ row.chars ++ e.before := by
      simp [row.newline_notMem, e.newline_notMem]
    rw [hchars, lines_next hn]
    exact .cons (row.says_of_ending e.ending) ih

/-- Rules that can stand on lines can be written. -/
theorem exists_rules_eq {rules : List Rule} (h : ∀ r ∈ rules, r.Writable) :
    ∃ file : WrittenFile, file.rules = rules := by
  induction rules with
  | nil => exact ⟨⟨[], .blank [] nofun⟩, rfl⟩
  | cons r rules ih =>
    obtain ⟨hr, hrules⟩ := List.forall_mem_cons.1 h
    obtain ⟨⟨ls, last⟩, rfl⟩ := ih hrules
    exact ⟨⟨(.rule r true hr nofun, .newline) :: ls, last⟩, rfl⟩

end WrittenFile

/-- Rules that can stand on lines can be written, and however they are written, with whatever blank
lines and comments between them, the file is read as these rules in their order. -/
theorem read_write {rules : List Rule} (h : ∀ r ∈ rules, r.Writable) :
    (∃ file : WrittenFile, file.rules = rules) ∧
      ∀ file : WrittenFile, file.rules = rules → read file.text = .ok rules := by
  refine ⟨WrittenFile.exists_rules_eq h, ?_⟩
  rintro file rfl
  rw [read_eq_ok_iff, WrittenFile.text, String.toList_ofList, readAll_of_said file.said_by_lines,
    List.reduceOption, List.filterMap_map]
  rfl

/-- The lowest numbers, and texts that look like annotations, comments and rules. -/
theorem read_write_lookalikes :
    read ("#: rule 1: &a\r\nrule -2147483648 (priority -2147483648): (priority 3): #0\n" ++
        "\t \r\nrule 5: # rule 6: &é") =
      .ok [⟨-2147483648, -2147483648, "(priority 3): #0"⟩, ⟨5, 0, "# rule 6: &é"⟩] := by
  have h₁ : Rule.Writable ⟨-2147483648, -2147483648, "(priority 3): #0"⟩ :=
    ⟨by decide, by decide, by decide, by decide⟩
  have h₂ : Rule.Writable ⟨5, 0, "# rule 6: &é"⟩ := ⟨by decide, by decide, by decide, by decide⟩
  have hread := (read_write (List.forall_mem_cons.2 ⟨h₁, List.forall_mem_singleton.2 h₂⟩)).2
    { lines := [(.comment ": rule 1: &a".toList (by decide) (by decide), .carriageReturn),
        (.rule _ true h₁ nofun, .newline), (.blank "\t ".toList (by decide), .carriageReturn)]
      last := .rule _ false h₂ (fun _ => rfl) } rfl
  convert hread using 2
  rfl

end RuleFile

end WordLogic
