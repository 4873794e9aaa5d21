import WordLogic.Proofs.Condition.Casing
import WordLogic.Proofs.Condition.Truth
import WordLogic.Proofs.Group.Connectives
import WordLogic.Proofs.Group.Runs
import WordLogic.Proofs.Text.Segments
import WordLogic.Proofs.Token.Grammar

/-!
# The display of a group, read back

A group is displayed in rule syntax: its literals in a row, with a bar between two alternatives and
a space between two clauses (`Group.toList_render`). No bar tells the connective of a run of one, and
a space after a run does not always end it: if the last alternative is a reference, the bar before it
stays pending and reaches the literal after the space.

* `ofChars_display`: what is read from the display (`readBack`), if no blank stands at its end.
* `isTrue_readBack`: it is true when the group is, if no run that ends in a reference has a clause
  after it (`Clause.isOpen`).
-/

namespace WordLogic

/-! ## The tokens of a display -/

/-- The literal as a token, which does not tell its connective. -/
def Literal.token (l : Literal) : Token :=
  match l.atom with
  | .word w => .word w.toList l.negated
  | .group k => .group k l.negated

/-- The tokens of a clause: a bar stands between alternatives. -/
def Clause.tokens (c : Clause) : List Token := (c.literals.map Literal.token).intersperse .bar

/-- The tokens of the display of a group. -/
def Group.tokens (g : Group) : List Token := g.clauses.flatMap Clause.tokens

theorem Literal.toList_render (l : Literal) : l.render.toList = l.token.render := by
  obtain ⟨connective, negated, atom⟩ := l
  cases negated <;> cases atom <;> simp [render, token, Token.render, Token.sign, Nat.repr]

theorem intersperse_ne_nil {α : Type} {sep : α} {xs : List α} (h : xs ≠ []) :
    xs.intersperse sep ≠ [] := by
  obtain ⟨x, xs, rfl⟩ := List.exists_cons_of_ne_nil h
  cases xs <;> exact List.cons_ne_nil _ _

theorem mem_of_mem_intersperse {α : Type} {sep x : α} {xs : List α}
    (h : x ∈ xs.intersperse sep) : x ∈ xs ∨ x = sep := by
  induction xs with
  | nil => cases h
  | cons y ys ih =>
    cases ys with
    | nil => exact .inl h
    | cons z zs =>
      rw [List.intersperse_cons_cons, List.mem_cons, List.mem_cons] at h
      obtain rfl | rfl | h := h
      · exact .inl List.mem_cons_self
      · exact .inr rfl
      · exact (ih h).imp_left (List.mem_cons_of_mem _)

theorem Literal.token_ne_bar (l : Literal) : l.token ≠ .bar := by
  unfold token
  cases l.atom <;> exact nofun

theorem Literal.render_token_cons (l : Literal) :
    ∃ ch rest, l.token.render = ch :: rest ∧ Text.isBlank ch = false := by
  obtain ⟨connective, negated, atom⟩ := l
  cases negated <;> cases atom <;> exact ⟨_, _, rfl, by decide⟩

/-- Tokens with a bar between neighbours are joined by bars. -/
theorem Token.join_intersperse_bar (ts : List Token) :
    Text.joinSegments ' ' ((ts.intersperse .bar).map render) =
      [' ', '|', ' '].intercalate (ts.map render) := by
  induction ts with
  | nil => rfl
  | cons t ts ih =>
    cases ts with
    | nil => rfl
    | cons u us =>
      have hrest : ((u :: us).intersperse .bar).map render ≠ [] :=
        mt List.map_eq_nil_iff.1 (intersperse_ne_nil (List.cons_ne_nil u us))
      show Text.joinSegments ' ' ([t.render] ++ ([['|']] ++ _)) = _
      rw [Text.joinSegments_append (by simp) (by simp), Text.joinSegments_append (by simp) hrest,
        ih]
      simp [Text.joinSegments, List.intercalate_cons_cons]

theorem Clause.toList_render (c : Clause) :
    c.render.toList = Text.joinSegments ' ' (c.tokens.map Token.render) := by
  rw [render, String.toList_intercalate, tokens, Token.join_intersperse_bar, List.map_map,
    List.map_map]
  congr 2
  funext l
  exact l.toList_render

theorem Clause.tokens_ne_nil {c : Clause} (h : c.literals ≠ []) : c.tokens ≠ [] :=
  intersperse_ne_nil (mt List.map_eq_nil_iff.1 h)

/-- **The display of a group is its tokens, joined by spaces.** -/
theorem Group.toList_render {g : Group} (h : ∀ c ∈ g.clauses, c.literals ≠ []) :
    g.render.toList = Text.joinSegments ' ' (g.tokens.map Token.render) := by
  have hrows : ∀ row ∈ g.clauses.map (·.tokens.map Token.render), row ≠ [] := by
    intro row hrow
    obtain ⟨c, hc, rfl⟩ := List.mem_map.1 hrow
    exact mt List.map_eq_nil_iff.1 (Clause.tokens_ne_nil (h c hc))
  rw [tokens, List.map_flatMap, List.flatMap_def, ← Text.joinSegments_flatten ' ' hrows, render,
    String.toList_intercalate, List.map_map, List.map_map]
  congr 2
  funext c
  exact c.toList_render

/-! ## What is read from it -/

/-- The word of the literal, if it has one, is in uppercase. -/
def Literal.IsUpper (l : Literal) : Prop := ∀ w, l.atom = .word w → Text.uppercase w = w

namespace Group

/-- The connective that literals with bars between them are read with: only a literal alone takes
the pending one. -/
def heard (pending : Connective) (ls : List Literal) : Connective :=
  if ls.length = 1 then pending else .or

/-- The last of the literals is a reference. -/
def endInReference (ls : List Literal) : Bool := ls.getLast?.any (·.token.isReference)

/-- The connective that they leave pending: a reference at their end passes on its own. -/
def leaves (pending : Connective) (ls : List Literal) : Connective :=
  if endInReference ls then heard pending ls else .and

/-- The literals that are read from the display of clauses. -/
def readBack (pending : Connective) : List Clause → List Literal
  | [] => []
  | c :: cs =>
    c.literals.map ({ · with connective := heard pending c.literals }) ++
      readBack (leaves pending c.literals) cs

theorem heard_or (ls : List Literal) : heard .or ls = .or := by
  simp [heard]

theorem heard_cons_cons (pending : Connective) (l m : Literal) (ls : List Literal) :
    heard pending (l :: m :: ls) = .or := by
  simp [heard]

theorem leaves_cons_cons (pending : Connective) (l m : Literal) (ls : List Literal) :
    leaves pending (l :: m :: ls) = leaves .or (m :: ls) := by
  simp [leaves, endInReference, heard_or, heard_cons_cons]

theorem push_token {l : Literal} (h : l.IsUpper) (r : Reading) :
    r.push l.token = ⟨{ l with connective := r.pending } :: r.literals, leaves r.pending [l]⟩ := by
  obtain ⟨connective, negated, atom⟩ := l
  cases atom with
  | word w =>
    have hw : Text.uppercase w = w := h w rfl
    simp [Literal.token, Reading.push, Literal.word, leaves, endInReference, Token.isReference, hw]
  | group k =>
    simp [Literal.token, Reading.push, Literal.group, leaves, endInReference, Token.isReference,
      heard]

/-- Literals with bars between them are read with one connective. -/
theorem foldl_push_row {ls : List Literal} (hne : ls ≠ []) (h : ∀ l ∈ ls, l.IsUpper)
    (r : Reading) :
    ((ls.map Literal.token).intersperse .bar).foldl Reading.push r =
      ⟨(ls.map ({ · with connective := heard r.pending ls })).reverse ++ r.literals,
        leaves r.pending ls⟩ := by
  induction ls generalizing r with
  | nil => exact absurd rfl hne
  | cons l ls ih =>
    obtain ⟨hl, hls⟩ := List.forall_mem_cons.1 h
    cases ls with
    | nil =>
      show [l.token].foldl Reading.push r = _
      simp [push_token hl, heard]
    | cons m ms =>
      rw [List.map_cons, List.map_cons, List.intersperse_cons_cons, List.foldl_cons,
        List.foldl_cons, push_token hl, ← List.map_cons, ih (List.cons_ne_nil m ms) hls]
      simp [Reading.push, Reading.bar, heard_or, heard_cons_cons, leaves_cons_cons]

/-- The induction is on the clauses: each leaves a pending connective to the next. -/
theorem foldl_push_tokens {cs : List Clause} (hne : ∀ c ∈ cs, c.literals ≠ [])
    (h : ∀ c ∈ cs, ∀ l ∈ c.literals, l.IsUpper) (r : Reading) :
    ((cs.flatMap Clause.tokens).foldl Reading.push r).literals =
      (readBack r.pending cs).reverse ++ r.literals := by
  induction cs generalizing r with
  | nil => rfl
  | cons c cs ih =>
    obtain ⟨hc, hcs⟩ := List.forall_mem_cons.1 hne
    obtain ⟨hup, hups⟩ := List.forall_mem_cons.1 h
    rw [List.flatMap_cons, List.foldl_append, Clause.tokens, foldl_push_row hc hup, ih hcs hups,
      readBack, List.reverse_append, List.append_assoc]

/-- A display begins with a literal. -/
theorem exists_tokens_eq {g : Group} (hne : g.literals ≠ []) :
    ∃ l ts, g.tokens = Literal.token l :: ts := by
  have hrow : g.clauses.flatMap Clause.literals = g.literals :=
    Clause.flatMap_literals_ofLiterals g.literals
  unfold tokens
  cases hcs : g.clauses with
  | nil =>
    rw [hcs] at hrow
    exact absurd hrow.symm hne
  | cons c cs =>
    obtain ⟨l, ls, hl⟩ := List.exists_cons_of_ne_nil (clause_ne_nil (hcs ▸ List.mem_cons_self))
    rw [List.flatMap_cons, Clause.tokens, hl]
    cases ls <;> exact ⟨l, _, rfl⟩

theorem tokens_legible {available : Nat} {g : Group}
    (hl : ∀ l ∈ g.literals, l.token.Legible available) : ∀ t ∈ g.tokens, t.Legible available := by
  intro t ht
  obtain ⟨c, hc, ht⟩ := List.mem_flatMap.1 ht
  obtain ht | rfl := mem_of_mem_intersperse ht
  · obtain ⟨l, hlc, rfl⟩ := List.mem_map.1 ht
    exact hl l (mem_literals hc hlc)
  · exact ⟨trivial, by decide, nofun⟩

/-- The display of a group whose last character is not blank has no blank at its ends. -/
theorem render_tight {g : Group} (hne : g.literals ≠ [])
    (hend : ∀ ch, g.render.toList.getLast? = some ch → Text.isBlank ch = false) :
    Tight g.render.toList := by
  obtain ⟨l, ts, hts⟩ := exists_tokens_eq hne
  obtain ⟨ch, rest, hch, hblank⟩ := l.render_token_cons
  have htext : g.render.toList = ch :: (rest ++ (ts.map Token.render).flatMap (' ' :: ·)) := by
    rw [toList_render fun c => clause_ne_nil, hts, List.map_cons, Text.joinSegments_cons, hch,
      List.cons_append]
  refine ⟨by simp [htext], fun c hc => ?_, hend⟩
  rw [htext] at hc
  cases hc
  exact hblank

/-- **What is read from a display.** -/
theorem ofChars_display {available : Nat} {g : Group} (hne : g.literals ≠ [])
    (hup : ∀ l ∈ g.literals, l.IsUpper) (hl : ∀ l ∈ g.literals, l.token.Legible available)
    (hend : ∀ ch, g.render.toList.getLast? = some ch → Text.isBlank ch = false) :
    ofChars available g.render.toList = .ok ⟨readBack .and g.clauses⟩ := by
  have htext := toList_render (g := g) fun c => clause_ne_nil
  have htight := render_tight hne hend
  rw [htext] at htight ⊢
  obtain ⟨l, ts, hts⟩ := exists_tokens_eq hne
  have hbar : ∃ t ∈ g.tokens, t ≠ .bar := ⟨l.token, hts ▸ List.mem_cons_self, l.token_ne_bar⟩
  rw [ofChars_render (tokens_legible hl) hbar htight, ofTokens, tokens,
    foldl_push_tokens (fun c => clause_ne_nil) fun c hc l hlc => hup l (mem_literals hc hlc)]
  simp [Reading.start]

end Group

/-! ## What it means -/

namespace Clause

/-- A run of alternatives that ends in a reference: the bar before the reference is still pending
after it. -/
def isOpen (c : Clause) : Bool := decide (c.literals.length ≠ 1) && Group.endInReference c.literals

/-- The clause as it is read when `and` is pending: an alternative alone is a demand. -/
def reread : Clause → Clause
  | .anyOf [l] => .single { l with connective := .and }
  | c => c

theorem reread_proper {c : Clause} (h : c.Proper) : c.reread.Proper := by
  rcases c with l | (_ | ⟨l, _ | ⟨m, ms⟩⟩)
  · exact h
  · exact h
  · exact rfl
  · exact h

theorem reread_isSingle {c : Clause} (h : c.IsSingle) : c.reread.IsSingle := by
  cases c with
  | single l => trivial
  | anyOf ls => exact h.elim

theorem literals_reread {c : Clause} (h : c.Proper) :
    c.reread.literals =
      c.literals.map ({ · with connective := Group.heard .and c.literals }) := by
  rcases c with l | (_ | ⟨l, _ | ⟨m, ms⟩⟩)
  · have hl : l.connective = .and := h
    simp [reread, literals, Group.heard, ← hl]
  · exact absurd rfl h.1
  · simp [reread, literals, Group.heard]
  · have hor : ∀ n ∈ l :: m :: ms, ({ n with connective := .or } : Literal) = n := by
      intro n hn
      rw [← h.2 n hn]
    rw [reread, literals, Group.heard_cons_cons, List.map_congr_left hor, List.map_id']
    intro n hsingle
    cases hsingle

theorem isTrue_reread (s : Sentence) (value : Nat → Bool) (c : Clause) :
    c.reread.isTrue s value = c.isTrue s value := by
  rcases c with l | (_ | ⟨l, _ | ⟨m, ms⟩⟩)
  · rfl
  · rfl
  · simp [reread, isTrue, Literal.isTrue]
  · rfl

end Clause

namespace Group

theorem leaves_and {c : Clause} (h : c.isOpen = false) : leaves .and c.literals = .and := by
  unfold leaves heard
  rw [Clause.isOpen, Bool.and_eq_false_iff, decide_eq_false_iff_not, not_not] at h
  rcases h with h | h
  · simp [h]
  · simp [h]

/-- Where no bar is pending after a clause, each clause is read by itself. -/
theorem readBack_eq {cs : List Clause} (hproper : ∀ c ∈ cs, c.Proper)
    (hclosed : cs.IsChain fun c _ => c.isOpen = false) :
    readBack .and cs = (cs.map Clause.reread).flatMap Clause.literals := by
  induction cs with
  | nil => rfl
  | cons c cs ih =>
    obtain ⟨hc, hcs⟩ := List.forall_mem_cons.1 hproper
    obtain ⟨hnext, hclosed⟩ := List.isChain_cons.1 hclosed
    rw [readBack, List.map_cons, List.flatMap_cons, Clause.literals_reread hc]
    cases cs with
    | nil => rfl
    | cons d ds => rw [leaves_and (hnext d rfl), ih hcs hclosed]

/-- **A group and its display mean the same**, if no clause follows a run that ends in a
reference. -/
theorem isTrue_readBack {g : Group} (hclosed : g.clauses.IsChain fun c _ => c.isOpen = false)
    (s : Sentence) (value : Nat → Bool) :
    (Group.mk (readBack .and g.clauses)).isTrue s value = g.isTrue s value := by
  have hproper : ∀ c ∈ g.clauses, c.Proper := Clause.ofLiterals_proper g.literals
  have hproper' : ∀ c ∈ g.clauses.map Clause.reread, c.Proper :=
    List.forall_mem_map.2 fun c hc => Clause.reread_proper (hproper c hc)
  have hchain : (g.clauses.map Clause.reread).IsChain fun c d => c.IsSingle ∨ d.IsSingle :=
    (List.isChain_map _).2 <| (Clause.ofLiterals_isChain g.literals).imp fun c d h =>
      h.imp Clause.reread_isSingle Clause.reread_isSingle
  have hclauses : (Group.mk (readBack .and g.clauses)).clauses = g.clauses.map Clause.reread := by
    rw [clauses, readBack_eq hproper hclosed, Clause.ofLiterals_flatMap_literals hproper' hchain]
  rw [isTrue, isTrue, hclauses, List.all_map]
  simp only [Function.comp_def, Clause.isTrue_reread]

/-- The tests are read back in their order, whatever the connectives. -/
theorem tests_readBack (pending : Connective) (cs : List Clause) :
    (readBack pending cs).map (fun l => (l.negated, l.atom)) =
      (cs.flatMap Clause.literals).map fun l => (l.negated, l.atom) := by
  induction cs generalizing pending with
  | nil => rfl
  | cons c cs ih => simp [readBack, ih]

end Group

/-! ## Groups that are read have a display that is read -/

namespace Token

/-- The words that the token asks for. -/
def words : Token → List (List Char)
  | .bar => []
  | .group _ _ => []
  | .word w _ => [w]
  | .expansion base endings _ => base :: endings.map (base ++ ·)

theorem IsName.append {xs ys : List Char} (hx : IsName xs) (hy : ∀ c ∈ ys, isBracket c = false) :
    IsName (xs ++ ys) :=
  ⟨by simp [hx.1], List.forall_mem_append.2 ⟨hx.2, hy⟩⟩

theorem WrittenAs.words {t : Token} {raw : List Char} (h : t.WrittenAs raw) (hspace : ' ' ∉ raw) :
    ∀ w ∈ t.words, IsName w ∧ ' ' ∉ w := by
  cases h with
  | bar rest => exact nofun
  | group negated hne hdigits hlt => exact nofun
  | word negated hw =>
    refine List.forall_mem_singleton.2 ⟨hw, fun hm => hspace ?_⟩
    exact List.mem_append_right _ (List.mem_cons_of_mem _ hm)
  | @expansion negated base endings hbase hendings =>
    have hsegments := Text.segments_join hendings.1 fun ending he => (hendings.2 ending he).2
    simp only [List.mem_append, List.mem_cons, not_or] at hspace
    obtain ⟨⟨⟨-, -, hb⟩, -, hjoin⟩, -⟩ := hspace
    refine List.forall_mem_cons.2 ⟨⟨hbase, hb⟩, List.forall_mem_map.2 fun ending he => ?_⟩
    have hending : ' ' ∉ ending := fun hm =>
      hjoin (Text.mem_of_mem_segments (hsegments.symm ▸ he) _ hm)
    exact ⟨hbase.append (hendings.2 ending he).1.2, by simp [hb, hending]⟩

end Token

namespace Group

/-- The literals of a token test its words, or the group that it refers to. -/
theorem mem_literalsAt {before after : List Token} {t : Token} {l : Literal}
    (h : l ∈ literalsAt before t after) :
    (∃ connective k negated, t = .group k negated ∧ l = .group connective k negated) ∨
      ∃ connective w negated, w ∈ t.words ∧ l = .word connective (String.ofList w) negated := by
  cases t with
  | bar => cases h
  | group k negated => exact .inl ⟨_, k, negated, rfl, List.mem_singleton.1 h⟩
  | word w negated => exact .inr ⟨_, w, negated, List.mem_singleton_self w, List.mem_singleton.1 h⟩
  | expansion base endings negated =>
    rw [literalsAt, List.mem_mapIdx] at h
    obtain ⟨i, hi, rfl⟩ := h
    exact .inr ⟨_, _, negated, List.getElem_mem hi, rfl⟩

/-- A word without brackets and spaces is told again in uppercase. -/
theorem token_word_legible {w : List Char} (hname : Token.IsName w) (hspace : ' ' ∉ w)
    (connective : Connective) (negated : Bool) (available : Nat) :
    (Literal.word connective (String.ofList w) negated).token.Legible available := by
  have htoken : (Literal.word connective (String.ofList w) negated).token =
      .word (Text.upper w) negated := by
    simp [Literal.word, Literal.token]
  rw [htoken]
  refine ⟨⟨mt Text.upper_eq_nil_iff.1 hname.1, fun c hc => ?_⟩, fun hm => ?_, fun k n hgroup => ?_⟩
  · obtain ⟨d, hd, hcd⟩ := Text.mem_upper.1 hc
    exact (Bool.not_inj (Token.caseBlind_notBracket d c hcd)).trans (hname.2 d hd)
  · have hup : ' ' ∈ Text.upper w := by
      cases negated <;> simpa [Token.render, Token.sign] using hm
    obtain ⟨d, hd, hcd⟩ := Text.mem_upper.1 hup
    rw [← Text.eq_of_mem_upperChar (by decide) hcd] at hd
    exact hspace hd
  · cases hgroup

/-- **The literals of a group that is read can be told again.** -/
theorem tokens_of_ofChars {available : Nat} {text : List Char} {g : Group}
    (h : ofChars available text = .ok g) : ∀ l ∈ g.literals, l.token.Legible available := by
  obtain ⟨ts, hts, hk, -, hg⟩ := ofChars_connectives.1 h
  intro l hl
  rw [hg] at hl
  obtain ⟨⟨t, i⟩, hti, hl⟩ := List.mem_flatMap.1 hl
  have ht : t ∈ ts := List.mem_of_getElem? (List.mk_mem_zipIdx_iff_getElem?.1 hti)
  obtain ⟨raw, hraw, hread⟩ := exists_of_mem_of_mapM_eq_ok hts ht
  have hwritten := Token.ofChars_eq_ok_iff.1 hread
  rcases mem_literalsAt hl with ⟨_, k, negated, rfl, rfl⟩ | ⟨connective, w, negated, hw, rfl⟩
  · have hlt := hk k negated ht
    have hfits := Token.group_fits hlt negated
    have hreadable : (Token.group k negated).Readable := by
      cases hwritten
      assumption
    exact ⟨hreadable, hfits.solid.space_notMem, hfits.group_lt⟩
  · obtain ⟨hname, hspace⟩ := hwritten.words (Text.not_mem_of_mem_segments hraw) w hw
    exact token_word_legible hname hspace connective negated available

end Group

end WordLogic
