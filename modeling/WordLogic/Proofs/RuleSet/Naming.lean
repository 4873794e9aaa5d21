import WordLogic.Proofs.RuleSet.Reachable

/-!
# Only named words matter

A rule set looks at a sentence by asking whether words occur in it, and it asks for no word but
those of its literals (`RuleSet.Names`). So two sentences that agree on these words
(`Sentence.AgreeOn`) are treated alike: each evaluation takes the same steps
(`Condition.settled_congr`), and the verdict and the report are the same (`reachable_named_words`).
-/

namespace WordLogic

/-- The word is that of a literal of the condition. -/
def Condition.Names (c : Condition) (w : String) : Prop :=
  ∃ g ∈ c.groups, ∃ l ∈ g.literals, l.atom = .word w

/-- The word is that of a literal of the set. -/
def RuleSet.Names (rs : RuleSet) (w : String) : Prop := ∃ e ∈ rs.entries, e.condition.Names w

/-- Each of these words is a token of both sentences or of neither. -/
def Sentence.AgreeOn (named : String → Prop) (s s' : Sentence) : Prop :=
  ∀ w, named w → (w ∈ s.tokens ↔ w ∈ s'.tokens)

variable {s s' : Sentence} {named : String → Prop}

theorem Sentence.AgreeOn.contains_eq (h : s.AgreeOn named s') {w : String} (hw : named w) :
    s.contains w = s'.contains w := by
  rw [Bool.eq_iff_iff, contains, contains, List.contains_iff_mem, List.contains_iff_mem]
  exact h w hw

theorem Sentence.AgreeOn.mono {fewer : String → Prop} (h : s.AgreeOn named s')
    (hfewer : ∀ w, fewer w → named w) : s.AgreeOn fewer s' :=
  fun w hw => h w (hfewer w hw)

namespace Condition

/-! ## The same steps -/

section Clauses

variable {group : Nat} {settle : (k : Nat) → k < group → Trail → Trailed Outcome}

theorem testLiteral_congr (h : s.AgreeOn named s') {l : Literal}
    (hl : ∀ w, l.atom = .word w → named w) (position : Nat) (trail : Trail) :
    testLiteral s group settle position l trail = testLiteral s' group settle position l trail := by
  unfold testLiteral
  cases ha : l.atom with
  | word w => simp only [h.contains_eq (hl w ha)]
  | group k => rfl

theorem testAny_congr (h : s.AgreeOn named s') {ls : List Literal}
    (hl : ∀ l ∈ ls, ∀ w, l.atom = .word w → named w) (position : Nat) (trail : Trail) :
    testAny s group settle position ls trail = testAny s' group settle position ls trail := by
  induction ls generalizing position trail with
  | nil => rfl
  | cons l ls ih =>
    obtain ⟨hl₁, hls⟩ := List.forall_mem_cons.1 hl
    rw [testAny, testAny, testLiteral_congr h hl₁]
    simp only [ih hls]

theorem testClauses_congr (h : s.AgreeOn named s') {cs : List Clause}
    (hl : ∀ l ∈ cs.flatMap Clause.literals, ∀ w, l.atom = .word w → named w) (position : Nat)
    (trail : Trail) :
    testClauses s group settle position cs trail =
      testClauses s' group settle position cs trail := by
  induction cs generalizing position trail with
  | nil => rfl
  | cons c cs ih =>
    rw [List.flatMap_cons, List.forall_mem_append] at hl
    obtain ⟨hc, hcs⟩ := hl
    cases c with
    | single l =>
      rw [testClauses, testClauses, testLiteral_congr h (hc l (List.mem_singleton_self l))]
      simp only [ih hcs]
    | anyOf ls =>
      have hls : testAny s group settle position ls trail =
          testAny s' group settle position ls trail := testAny_congr h hc position trail
      rw [testClauses, testClauses, hls]
      simp only [ih hcs]

end Clauses

variable {c : Condition}

/-- Both sentences take an evaluation the same way, from any trail. The induction is on the index:
the groups that a literal leads to come before. -/
theorem settle_congr (h : s.AgreeOn c.Names s') (index : Nat) (trail : Trail) :
    settle c.groups s index trail = settle c.groups s' index trail := by
  induction index using Nat.strongRecOn generalizing trail with
  | ind index ih =>
    have hearlier : (fun k (_ : k < index) => settle c.groups s k) =
        fun k _ => settle c.groups s' k := by
      funext k hk trail
      exact ih k hk trail
    rw [settle, settle, hearlier]
    cases hg : c.groups[index]? with
    | none => rcases trail.known[index]? with _ | _ | o <;> rfl
    | some g =>
      have hnamed : ∀ l ∈ g.clauses.flatMap Clause.literals, ∀ w, l.atom = .word w → c.Names w := by
        rw [Group.clauses, Clause.flatMap_literals_ofLiterals]
        exact fun l hl w hw => ⟨g, List.mem_of_getElem? hg, l, hl, hw⟩
      have hclauses : testClauses s index (fun k _ => settle c.groups s' k) 0 g.clauses
            (trail.note (.enter index)) =
          testClauses s' index (fun k _ => settle c.groups s' k) 0 g.clauses
            (trail.note (.enter index)) :=
        testClauses_congr h hnamed 0 _
      rcases trail.known[index]? with _ | _ | o
      · rfl
      · simp only [hclauses]
      · rfl

theorem settled_congr (h : s.AgreeOn c.Names s') (index : Nat) :
    c.settled index s = c.settled index s' :=
  settle_congr h index _

theorem outcome_congr (h : s.AgreeOn c.Names s') (index : Nat) :
    c.outcome index s = c.outcome index s' := by
  rw [outcome, outcome, settled_congr h]

theorem reason?_congr (h : s.AgreeOn c.Names s') : c.reason? s = c.reason? s' := by
  rw [reason?, reason?, outcome_congr h]

end Condition

namespace RuleSet

/-! ## The same answers -/

theorem firstMatch_congr {es : List Entry} (h : ∀ e ∈ es, s.AgreeOn e.condition.Names s') :
    firstMatch s es = firstMatch s' es := by
  induction es with
  | nil => rfl
  | cons e es ih =>
    obtain ⟨he, hes⟩ := List.forall_mem_cons.1 h
    rw [firstMatch, firstMatch, Condition.outcome_congr he, ih hes]

theorem reportOn_congr {es : List Entry} (h : ∀ e ∈ es, s.AgreeOn e.condition.Names s') :
    reportOn s es = reportOn s' es := by
  induction es with
  | nil => rfl
  | cons e es ih =>
    obtain ⟨he, hes⟩ := List.forall_mem_cons.1 h
    rw [reportOn, reportOn, Condition.reason?_congr he, ih hes]

/-- **Only the words that a set names matter.** Of two texts that have the same ones of these words,
whatever else they have and in whatever order, the set gives the same verdict and the same report,
with the same notes, and evaluates each group of each rule by the same steps. -/
theorem reachable_named_words {rs : RuleSet} (hrs : rs.Reachable) {text text' : String}
    (h : (Sentence.ofText text).AgreeOn rs.Names (Sentence.ofText text')) :
    (∃ v, rs.verdict (Sentence.ofText text) = .ok v ∧ rs.verdict (Sentence.ofText text') = .ok v) ∧
    (∃ r, rs.report (Sentence.ofText text) = .ok r ∧ rs.report (Sentence.ofText text') = .ok r) ∧
    ∀ e ∈ rs.entries, ∀ index, e.condition.settled index (Sentence.ofText text) =
      e.condition.settled index (Sentence.ofText text') := by
  have hconditions := hrs.wellFormed.conditions
  have hentries : ∀ e ∈ rs.entries,
      (Sentence.ofText text).AgreeOn e.condition.Names (Sentence.ofText text') :=
    fun e he => h.mono fun w hw => ⟨e, he, hw⟩
  obtain ⟨v, hv⟩ := firstMatch_eq_ok (Sentence.ofText text) hconditions
  obtain ⟨r, hr⟩ := reportOn_eq_ok (Sentence.ofText text) hconditions
  refine ⟨⟨v, hv, ?_⟩, ⟨r, hr, ?_⟩, fun e he => Condition.settled_congr (hentries e he)⟩
  · rw [verdict, ← firstMatch_congr hentries, hv]
  · rw [report, ← reportOn_congr hentries, hr]

/-- A text with other words, another order and another case is treated alike. -/
theorem reachable_named_words_shuffled :
    ∃ rs v, (build [⟨2, 1, "(&a | &b) !#0"⟩, ⟨1, -1, "!&c &b"⟩]).value = .ok rs ∧
      (Sentence.ofText "x b c B").AgreeOn rs.Names (Sentence.ofText "C  and b") ∧
      rs.verdict (Sentence.ofText "x b c B") = .ok v ∧
      rs.verdict (Sentence.ofText "C  and b") = .ok v := by
  let c : Condition :=
    ⟨[⟨[.word .or "a" false, .word .or "b" false]⟩,
      ⟨[.group .and 0 false, .group .and 0 true]⟩], 1⟩
  let d : Condition := ⟨[⟨[.word .and "c" true, .word .and "b" false]⟩], 0⟩
  have hc : Condition.ofText "(&a | &b) !#0" = .ok c := (Scan.ofText_eq_run _).trans rfl
  have hd : Condition.ofText "!&c &b" = .ok d := (Scan.ofText_eq_run _).trans rfl
  have hbuild : (build [⟨2, 1, "(&a | &b) !#0"⟩, ⟨1, -1, "!&c &b"⟩]).value = .ok _ :=
    build_eq_ok_iff.2 ⟨by decide, _, readEntries_cons hc (readEntries_cons hd rfl), rfl⟩
  have htokens : (Sentence.ofText "x b c B").tokens = ["X", "B", "C", "B"] := by decide
  have htokens' : (Sentence.ofText "C  and b").tokens = ["C", "AND", "B"] := by decide
  have hatoms : ∀ e ∈ [(⟨⟨2, 1, "(&a | &b) !#0"⟩, c⟩ : Entry), ⟨⟨1, -1, "!&c &b"⟩, d⟩],
      ∀ g ∈ e.condition.groups, ∀ l ∈ g.literals,
        l.atom ∈ [.group 0, .word "A", .word "B", .word "C"] := by
    decide
  have hagree : (Sentence.ofText "x b c B").AgreeOn
      (RuleSet.Names ⟨sortEntries [⟨⟨2, 1, "(&a | &b) !#0"⟩, c⟩, ⟨⟨1, -1, "!&c &b"⟩, d⟩], none⟩)
      (Sentence.ofText "C  and b") := by
    rintro w ⟨e, he, g, hg, l, hl, hw⟩
    rw [htokens, htokens']
    rw [(sortEntries_perm _).mem_iff] at he
    have hword : Atom.word w ∈ [.group 0, .word "A", .word "B", .word "C"] :=
      hw ▸ hatoms e he g hg l hl
    simp only [List.mem_cons, reduceCtorEq, false_or, Atom.word.injEq, List.not_mem_nil, or_false]
      at hword
    rcases hword with rfl | rfl | rfl <;> decide
  obtain ⟨⟨v, hv, hv'⟩, -, -⟩ := reachable_named_words (.built hbuild) hagree
  exact ⟨_, v, hbuild, hagree, hv, hv'⟩

end RuleSet

end WordLogic
