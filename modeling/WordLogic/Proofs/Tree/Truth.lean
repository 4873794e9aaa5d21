import Mathlib
import WordLogic.Proofs.Condition.Truth
import WordLogic.Proofs.Condition.WellFormed
import WordLogic.Proofs.Tree.Flat

/-!
# The truth of a tree

The condition that is read from the text of a tree holds for a sentence when the tree does
(`ofText_render`).

* `Clause.ofLiterals_concat`: the clauses of a row, when a literal is put behind it.
* `Gathered`: the literals that were read so far are those of some conjuncts, and the pending
  connective is `or` when the last conjunct is an open run.
* `Body.gathered`: reading the tokens of a body gathers its conjuncts.
-/

namespace WordLogic

/-! ## Clauses from left to right -/

namespace Clause

/-- The clauses of a row with one more literal. The last clause stands first. -/
def extend (l : Literal) (cs : List Clause) : List Clause :=
  match l.connective, cs with
  | .and, cs => .single l :: cs
  | .or, .anyOf ms :: cs => .anyOf (ms ++ [l]) :: cs
  | .or, cs => .anyOf [l] :: cs

/-- A literal at the end of a row touches the last clause only. -/
theorem ofLiterals_concat (ls : List Literal) (l : Literal) :
    ofLiterals (ls ++ [l]) = (extend l (ofLiterals ls).reverse).reverse := by
  induction ls with
  | nil => cases h : l.connective <;> simp [ofLiterals, extend, h]
  | cons x xs ih =>
    rw [List.cons_append, ofLiterals, ofLiterals, ih]
    generalize ofLiterals xs = cs
    rcases List.eq_nil_or_concat cs with rfl | ⟨cs, c, rfl⟩
    · cases hx : x.connective <;> cases hl : l.connective <;> simp [extend, hl]
    · cases cs with
      | nil =>
        cases hx : x.connective <;> cases hl : l.connective <;> cases c <;> simp [extend, hl]
      | cons d ds =>
        cases hx : x.connective <;> cases hl : l.connective <;> cases c <;> cases d <;>
          simp [extend, hl]

end Clause

namespace Tree

open Conjunct

variable {s : Sentence} {v : Nat → Bool}

/-- What a literal comes to when the groups have the given truth. -/
def literalPart (s : Sentence) (v : Nat → Bool) (l : Literal) : Part :=
  ⟨l.isTrue s v, match l.atom with | .word _ => false | .group _ => true⟩

/-- What a clause comes to. -/
def clauseConjunct (s : Sentence) (v : Nat → Bool) : Clause → Conjunct
  | .single l => .single (literalPart s v l)
  | .anyOf ls => .run (ls.map (literalPart s v))

/-- The conjuncts of a row of literals, the last literal first. -/
def conjuncts (s : Sentence) (v : Nat → Bool) (ls : List Literal) : List Conjunct :=
  (Clause.ofLiterals ls.reverse).reverse.map (clauseConjunct s v)

theorem conjuncts_and {l : Literal} (h : l.connective = .and) (ls : List Literal) :
    conjuncts s v (l :: ls) = .single (literalPart s v l) :: conjuncts s v ls := by
  rw [conjuncts, List.reverse_cons, Clause.ofLiterals_concat, List.reverse_reverse]
  simp only [Clause.extend, h, List.map_cons]
  rfl

theorem conjuncts_or {l : Literal} (h : l.connective = .or) (ls : List Literal) :
    conjuncts s v (l :: ls) = joinRun [literalPart s v l] (conjuncts s v ls) := by
  rw [conjuncts, List.reverse_cons, Clause.ofLiterals_concat, List.reverse_reverse, conjuncts]
  simp only [Clause.extend, h]
  cases (Clause.ofLiterals ls.reverse).reverse with
  | nil => rfl
  | cons c cs =>
    cases c with
    | single l' => rfl
    | anyOf ms => simp [clauseConjunct, joinRun]

/-- The conjuncts of a row hold when its group is true. -/
theorem all_conjuncts (ls : List Literal) :
    (conjuncts s v ls).all Conjunct.holds = (Group.mk ls.reverse).isTrue s v := by
  have hclause : Conjunct.holds ∘ clauseConjunct s v = Clause.isTrue s v := by
    funext c
    cases c with
    | single l => rfl
    | anyOf ls =>
      simp only [Function.comp_apply, clauseConjunct, Conjunct.holds, Clause.isTrue, List.any_map]
      rfl
  rw [conjuncts, List.all_map, hclause, List.all_reverse]
  rfl

/-! ## Rows of literals -/

theorem joinRun_joinRun (xs ys : List Part) (cs : List Conjunct) :
    joinRun ys (joinRun xs cs) = joinRun (xs ++ ys) cs := by
  cases cs with
  | nil => rfl
  | cons c cs =>
    cases c with
    | single part => rfl
    | run parts => simp [joinRun]

theorem endsOpen_joinRun {parts : List Part} (hne : parts ≠ []) (cs : List Conjunct) :
    endsOpen (joinRun parts cs) = parts.getLast?.any (·.isNested) := by
  have hlast (before : List Part) : (before ++ parts).getLast? = parts.getLast? := by
    rw [List.getLast?_append, List.getLast?_eq_some_getLast hne, Option.some_or]
  cases cs with
  | nil => rfl
  | cons c cs =>
    cases c with
    | single part => rfl
    | run before =>
      show (before ++ parts).getLast?.any _ = _
      rw [hlast]

theorem endsOpen_singles {parts : List Part} (hne : parts ≠ []) (cs : List Conjunct) :
    endsOpen ((parts.map .single).reverse ++ cs) = false := by
  obtain rfl | ⟨before, part, rfl⟩ := List.eq_nil_or_concat parts
  · exact absurd rfl hne
  · rw [List.concat_eq_append, List.map_append, List.reverse_append]
    rfl

/-- Alternatives go into one run. -/
theorem conjuncts_alternatives {ls : List Literal} (hne : ls ≠ [])
    (h : ∀ l ∈ ls, l.connective = .or) (before : List Literal) :
    conjuncts s v (ls.reverse ++ before) =
      joinRun (ls.map (literalPart s v)) (conjuncts s v before) := by
  induction ls generalizing before with
  | nil => exact absurd rfl hne
  | cons l ls ih =>
    obtain ⟨hl, hls⟩ := List.forall_mem_cons.1 h
    rw [List.reverse_cons, List.append_assoc, List.singleton_append]
    cases ls with
    | nil => exact conjuncts_or hl before
    | cons l' ls =>
      rw [ih (List.cons_ne_nil _ _) hls, conjuncts_or hl, joinRun_joinRun]
      rfl

/-- Demands are conjuncts of their own. -/
theorem conjuncts_demands {ls : List Literal} (h : ∀ l ∈ ls, l.connective = .and)
    (before : List Literal) :
    conjuncts s v (ls.reverse ++ before) =
      ((ls.map (literalPart s v)).map .single).reverse ++ conjuncts s v before := by
  induction ls generalizing before with
  | nil => rfl
  | cons l ls ih =>
    obtain ⟨hl, hls⟩ := List.forall_mem_cons.1 h
    rw [List.reverse_cons, List.append_assoc, List.singleton_append, ih hls, conjuncts_and hl]
    simp

/-! ## Reading -/

open WordLogic.Group (Reading)

/-- What has been read are the literals of the conjuncts, and the next literal is an alternative
when the last conjunct is an open run. -/
structure Gathered (s : Sentence) (v : Nat → Bool) (r : Reading) (cs : List Conjunct) : Prop where
  conjuncts : conjuncts s v r.literals = cs
  pending : r.pending = if endsOpen cs then .or else .and

theorem start_gathered : Gathered s v Reading.start [] := ⟨rfl, rfl⟩

/-- An alternative goes into the run at the end, and leaves it open if it is a nested body. -/
theorem gathered_alternative {l : Literal} (hl : l.connective = .or) {ls : List Literal}
    {cs : List Conjunct} (h : conjuncts s v ls = cs) :
    Gathered s v ⟨l :: ls, if (literalPart s v l).isNested then .or else .and⟩
      (joinRun [literalPart s v l] cs) := by
  refine ⟨?_, ?_⟩
  · rw [conjuncts_or hl, h]
  · rw [endsOpen_joinRun (List.cons_ne_nil _ _)]
    rfl

/-- A literal that is pushed with the pending connective is a single leaf. -/
theorem Gathered.leaf {r : Reading} {cs : List Conjunct} (h : Gathered s v r cs) {l : Literal}
    (hl : l.connective = r.pending) :
    Gathered s v
      ⟨l :: r.literals, if (literalPart s v l).isNested then r.pending else .and⟩
      (joinLeaf (literalPart s v l) cs) := by
  rw [h.pending] at hl ⊢
  unfold joinLeaf
  cases ho : endsOpen cs with
  | true =>
    rw [ho] at hl
    exact gathered_alternative hl h.conjuncts
  | false =>
    rw [ho] at hl
    refine ⟨(conjuncts_and hl _).trans (by rw [h.conjuncts]; rfl), ?_⟩
    cases (literalPart s v l).isNested <;> rfl

theorem expansion_parts (e : Expansion) (negated : Bool) :
    (Reading.expansion e.base.chars e.endings negated).map (literalPart s v) =
      e.parts s negated := by
  rw [Reading.expansion, List.map_map]
  rfl

theorem expansion_connective (e : Expansion) (negated : Bool) :
    ∀ l ∈ Reading.expansion e.base.chars e.endings negated,
      l.connective = if negated then .and else .or := by
  intro l hl
  obtain ⟨w, -, rfl⟩ := List.mem_map.1 hl
  rfl

theorem expansion_parts_ne_nil (e : Expansion) (negated : Bool) : e.parts s negated ≠ [] :=
  List.cons_ne_nil _ _

theorem not_isNested_expansion (e : Expansion) (negated : Bool) :
    (e.parts s negated).getLast?.any (·.isNested) = false := by
  rw [Expansion.parts, List.getLast?_map]
  cases e.words.getLast? with
  | none => rfl
  | some w => rfl

/-- A word with endings goes into a run, whatever is pending. -/
theorem gathered_expansion {r : Reading} {cs : List Conjunct} (h : conjuncts s v r.literals = cs)
    (e : Expansion) : Gathered s v (r.push (e.token false)) (joinRun (e.parts s false) cs) := by
  refine ⟨?_, ?_⟩
  · rw [← h, ← expansion_parts (v := v)]
    exact conjuncts_alternatives (List.cons_ne_nil _ _) (expansion_connective e false) _
  · rw [endsOpen_joinRun (expansion_parts_ne_nil e false), not_isNested_expansion]
    rfl

/-- The words of a negated word with endings are conjuncts of their own. -/
theorem gathered_negatedExpansion {r : Reading} {cs : List Conjunct}
    (h : conjuncts s v r.literals = cs) (e : Expansion) :
    Gathered s v (r.push (e.token true)) (((e.parts s true).map .single).reverse ++ cs) := by
  refine ⟨?_, ?_⟩
  · rw [← h, ← expansion_parts (v := v)]
    exact conjuncts_demands (expansion_connective e true) _
  · rw [endsOpen_singles (expansion_parts_ne_nil e true)]
    rfl

/-- A bar makes the literal before it an alternative. -/
theorem bar_leaf (l : Literal) (ls : List Literal) (pending : Connective) :
    conjuncts s v (Reading.bar ⟨l :: ls, pending⟩).literals =
        joinRun [literalPart s v l] (conjuncts s v ls) ∧
      (Reading.bar ⟨l :: ls, pending⟩).pending = .or :=
  ⟨conjuncts_or rfl ls, rfl⟩

/-- An expansion is one of alternatives even without a bar. -/
theorem bar_expansion (r : Reading) (e : Expansion) :
    (r.push (e.token false)).bar = { r.push (e.token false) with pending := .or } := by
  have hor := expansion_connective e false
  show Reading.bar ⟨(Reading.expansion e.base.chars e.endings false).reverse ++ r.literals, .and⟩ =
    ⟨(Reading.expansion e.base.chars e.endings false).reverse ++ r.literals, .or⟩
  obtain h | ⟨before, l, h⟩ :=
    List.eq_nil_or_concat (Reading.expansion e.base.chars e.endings false)
  · cases h
  · rw [h, List.concat_eq_append] at hor ⊢
    have hl : l.connective = .or := hor l (by simp)
    rw [List.reverse_append]
    show Reading.mk ({ l with connective := .or } :: _) .or = _
    rw [← hl]
    rfl

/-! ## Trees -/

section Trees

variable {groups : List Group}

/-- A group is true when the conjuncts hold that its tokens gather. -/
theorem isTrue_of_gathered (hb : Condition.Backward groups) {f : Flat} {cs : List Conjunct}
    (h : f.groups ++ [.ofTokens f.tokens] <+: groups)
    (hg : Gathered s (Condition.isTrue groups s) (f.tokens.foldl Reading.push Reading.start) cs) :
    Condition.isTrue groups s f.groups.length = cs.all Conjunct.holds := by
  have hgroup : groups[f.groups.length]? = some (.ofTokens f.tokens) := by
    obtain ⟨later, rfl⟩ := h
    simp
  rw [Condition.isTrue_eq hb hgroup, Group.ofTokens, ← all_conjuncts, hg.conjuncts]

mutual

/-- A leaf gives one literal, which has the pending connective. -/
theorem Leaf.push_flat (hb : Condition.Backward groups) {gs : List Group} (r : Reading) :
    (l : Leaf) → (l.flat gs).groups <+: groups →
    ∃ lit : Literal, lit.connective = r.pending ∧
      literalPart s (Condition.isTrue groups s) lit = l.part s ∧
      (l.flat gs).tokens.foldl Reading.push r =
        ⟨lit :: r.literals, if (l.part s).isNested then r.pending else .and⟩
  | .word w negated, _ => ⟨.word r.pending (String.ofList w.chars) negated, rfl, rfl, rfl⟩
  | .nested b negated, h => by
    have hbody := b.gathered hb ((List.prefix_append _ _).trans h) start_gathered
    refine ⟨.group r.pending (b.flat gs).groups.length negated, rfl, ?_, rfl⟩
    show Part.mk (Condition.isTrue groups s _ != negated) true = _
    rw [isTrue_of_gathered hb h hbody, Leaf.part]

/-- A bar after a member makes it one of several alternatives. -/
theorem Member.push_bar (hb : Condition.Backward groups) {gs : List Group} (r : Reading) :
    (m : Member) → (m.flat gs).groups <+: groups →
    let after := ((m.flat gs).tokens.foldl Reading.push r).bar
    conjuncts s (Condition.isTrue groups s) after.literals =
        joinRun (m.parts s) (conjuncts s (Condition.isTrue groups s) r.literals) ∧
      after.pending = .or
  | .leaf l, h => by
    obtain ⟨lit, -, hpart, htokens⟩ := l.push_flat hb r h
    rw [Member.flat, Member.parts, htokens, ← hpart]
    exact bar_leaf lit r.literals _
  | .expansion e, _ => by
    show conjuncts s _ (r.push (e.token false)).bar.literals = _ ∧
      (r.push (e.token false)).bar.pending = _
    rw [bar_expansion]
    exact ⟨(gathered_expansion rfl e).conjuncts, rfl⟩

/-- After a bar, members go into the run before them. -/
theorem Members.gathered (hb : Condition.Backward groups) {gs : List Group} {r : Reading}
    {cs : List Conjunct} : (ms : Members) → (ms.flat gs).groups <+: groups →
    conjuncts s (Condition.isTrue groups s) r.literals = cs → r.pending = .or →
    Gathered s (Condition.isTrue groups s) ((ms.flat gs).tokens.foldl Reading.push r)
      (joinRun (ms.parts s) cs)
  | .one (.leaf l), h, hr, hp => by
    obtain ⟨lit, hlit, hpart, htokens⟩ := l.push_flat hb r h
    rw [Members.flat, Member.flat, Members.parts, Member.parts, htokens, ← hpart, hp]
    exact gathered_alternative (hlit.trans hp) hr
  | .one (.expansion e), _, hr, _ => gathered_expansion hr e
  | .more m ms, h, hr, _ => by
    obtain ⟨hm, hbar⟩ := m.push_bar hb r ((ms.yields _).grows.trans h)
    rw [hr] at hm
    rw [Members.flat, Flat.or, List.foldl_append, List.foldl_cons, Members.parts, ← joinRun_joinRun]
    exact ms.gathered hb h hm hbar

/-- Reading the tokens of an item gathers its conjuncts. -/
theorem Item.gathered (hb : Condition.Backward groups) {gs : List Group} {r : Reading}
    {cs : List Conjunct} : (i : Item) →
    (i.flat gs).groups <+: groups → Gathered s (Condition.isTrue groups s) r cs →
    Gathered s (Condition.isTrue groups s) ((i.flat gs).tokens.foldl Reading.push r)
      (i.conjuncts s cs)
  | .single l, h, hr => by
    obtain ⟨lit, hlit, hpart, htokens⟩ := l.push_flat hb r h
    rw [Item.flat, Item.conjuncts, htokens, ← hpart]
    exact hr.leaf hlit
  | .run m ms, h, hr => by
    obtain ⟨hm, hbar⟩ := m.push_bar hb r ((ms.yields _).grows.trans h)
    rw [hr.conjuncts] at hm
    rw [Item.flat, Flat.or, List.foldl_append, List.foldl_cons, Item.conjuncts, ← joinRun_joinRun]
    exact ms.gathered hb h hm hbar
  | .expansion e, _, hr => gathered_expansion hr.conjuncts e
  | .negatedExpansion e, _, hr => gathered_negatedExpansion hr.conjuncts e

/-- Reading the tokens of a body gathers its conjuncts. -/
theorem Body.gathered (hb : Condition.Backward groups) {gs : List Group} {r : Reading}
    {cs : List Conjunct} : (b : Body) →
    (b.flat gs).groups <+: groups → Gathered s (Condition.isTrue groups s) r cs →
    Gathered s (Condition.isTrue groups s) ((b.flat gs).tokens.foldl Reading.push r)
      (b.conjuncts s cs)
  | .one i, h, hr => i.gathered hb h hr
  | .more i b, h, hr => by
    have hi := i.gathered hb ((b.yields _).grows.trans h) hr
    rw [Body.flat, Flat.next, List.foldl_append, Body.conjuncts]
    exact b.gathered hb h hi

end

end Trees

/-- **A rule says what its tree says.** The text of every tree is read, and what is read holds for a
sentence when the tree does. References in rule text are numbers below `2 ^ 64`, so there can be
only so many nested bodies. -/
theorem ofText_render (b : Body) (h : b.render.count ')' ≤ 2 ^ 64) :
    ∃ c, Condition.ofText (String.ofList b.render) = .ok c ∧
      ∀ s : Sentence, c.holds s = .ok (b.holds s) := by
  have hy := b.yields []
  have hbound : (b.flat []).groups.length ≤ Token.indexBound := by
    rw [hy.length_groups, List.length_nil, Nat.zero_add]
    exact h
  have hscan := hy.advance hbound Scan.start rfl []
  have hroot : Group.ofChars (b.flat []).groups.length (b.flat []).text =
      .ok (.ofTokens (b.flat []).tokens) := Group.ofChars_join hbound hy.fits hy.ne_bar
  have hc : Condition.ofText (String.ofList b.render) =
      .ok ⟨(b.flat []).groups ++ [.ofTokens (b.flat []).tokens], (b.flat []).groups.length⟩ := by
    rw [Scan.ofText_eq_run, String.toList_ofList, Text.trim_eq_self hy.tight.head hy.tight.last,
      Scan.run, hscan]
    simp only [Scan.finish, Flat.after, Scan.start, List.nil_append, hroot]
  refine ⟨_, hc, fun s => ?_⟩
  have hwell := Condition.ofText_wellFormed hc
  rw [Condition.holds, Condition.groupHolds_eq_ok hwell.backward hwell.root_lt]
  have hbody := b.gathered hwell.backward (List.prefix_append _ _) (s := s) start_gathered
  rw [isTrue_of_gathered hwell.backward List.prefix_rfl hbody, Body.holds]

/-- A tree with an open run: `&c` goes into the run before it, as the run ends with a nested
body. -/
def openRun : Body :=
  let word (c : Char) (h : IsWordChar c) : Word := ⟨[c], by simp, by simpa using h⟩
  let nested (c : Char) (h : IsWordChar c) (negated : Bool) : Member :=
    .leaf (.nested (.one (.single (.word (word c h) false))) negated)
  .more (.run (nested 'a' (by decide) false) (.one (nested 'b' (by decide) true)))
    (.more (.single (.word (word 'c' (by decide)) false))
      (.one (.negatedExpansion
        ⟨word 'd' (by decide), ⟨word 's' (by decide), by decide⟩, []⟩)))

theorem ofText_render_openRun :
    ∃ c, Condition.ofText "(&a) | !(&b) &c !&d[s]" = .ok c ∧
      c.holds (Sentence.ofText "b c") = .ok true := by
  obtain ⟨c, hc, hs⟩ := ofText_render openRun (by decide)
  have htext : String.ofList openRun.render = "(&a) | !(&b) &c !&d[s]" := by decide
  have hholds : openRun.holds (Sentence.ofText "b c") = true := by decide
  rw [htext] at hc
  exact ⟨c, hc, (hs _).trans (congrArg _ hholds)⟩

end Tree

end WordLogic
