import WordLogic.Proofs.Condition.WellFormed
import WordLogic.Proofs.Group.Tokens

/-!
# The connectives of a group

A group is read from left to right with a pending connective, and a bar goes back to the literal
before it. `Group.literalsAt` says without a pending connective what a token gives that stands
between others: only the token after it counts, and the nearest one before it that is no reference.

* `ofTokens_eq`: reading row by row gives these literals, one token after the other.
* `ofChars_eq_ok_iff`: what a text must be to be read as a group.
* `ofChars_connectives`: both together.
-/

namespace WordLogic

/-- The token refers to a group. -/
def Token.isReference : Token → Bool
  | .group _ _ => true
  | _ => false

namespace Group

/-! ## Literals by the tokens around them -/

/-- The next token is a bar. -/
def BeforeBar (after : List Token) : Prop := after.head? = some .bar

/-- The nearest token before that is no reference is a bar. -/
def AfterBar (before : List Token) : Prop := before.reverse.find? (!·.isReference) = some .bar

instance (after : List Token) : Decidable (BeforeBar after) :=
  inferInstanceAs (Decidable (after.head? = some .bar))

instance (before : List Token) : Decidable (AfterBar before) :=
  inferInstanceAs (Decidable (before.reverse.find? (!·.isReference) = some .bar))

/-- The connective of a word or a reference between other tokens. -/
def connectiveAt (before after : List Token) : Connective :=
  if BeforeBar after ∨ AfterBar before then .or else .and

/-- The literals of a token between other tokens, each with the negation of the token, and words in
uppercase. A word with endings gives a literal for the word
itself and for each ending; a bar after it reaches only the last of them. -/
def literalsAt (before : List Token) (t : Token) (after : List Token) : List Literal :=
  match t with
  | .bar => []
  | .group k negated => [⟨connectiveAt before after, negated, .group k⟩]
  | .word w negated =>
    [⟨connectiveAt before after, negated, .word (Text.uppercase (String.ofList w))⟩]
  | .expansion base endings negated =>
    (base :: endings.map (base ++ ·)).mapIdx fun i w =>
      ⟨if i = endings.length ∧ BeforeBar after then .or else if negated then .and else .or,
        negated, .word (Text.uppercase (String.ofList w))⟩

/-- The literals of a row of tokens, in their order. -/
def literalsOf (ts : List Token) : List Literal :=
  ts.zipIdx.flatMap fun (t, i) => literalsAt (ts.take i) t (ts.drop (i + 1))

/-- The literals of tokens that stand after others. -/
def literalsAfter (before : List Token) : List Token → List Literal
  | [] => []
  | t :: after => literalsAt before t after ++ literalsAfter (before ++ [t]) after

theorem literalsAfter_eq (before ts : List Token) :
    literalsAfter before ts = ts.zipIdx.flatMap fun (t, i) =>
      literalsAt (before ++ ts.take i) t (ts.drop (i + 1)) := by
  induction ts generalizing before with
  | nil => rfl
  | cons t after ih =>
    rw [literalsAfter, ih, List.zipIdx_cons, List.flatMap_cons, List.zipIdx_succ, List.flatMap_map]
    simp [List.append_assoc]

/-! ## Reading gives these literals -/

/-- The literals so far, of which the last one is in front, when the next tokens are known: a bar
makes an alternative of the last one. -/
def marked (after : List Token) : List Literal → List Literal
  | [] => []
  | l :: ls => (if BeforeBar after then { l with connective := .or } else l) :: ls

/-- The connective that is pending after some tokens. -/
def pendingAfter (before : List Token) : Connective := if AfterBar before then .or else .and

theorem beforeBar_cons {t : Token} {after : List Token} : BeforeBar (t :: after) ↔ t = .bar := by
  simp [BeforeBar]

/-- A reference leaves things as they are, and any other token decides. -/
theorem afterBar_concat {before : List Token} {t : Token} :
    AfterBar (before ++ [t]) ↔ t = .bar ∨ t.isReference = true ∧ AfterBar before := by
  unfold AfterBar
  rw [List.reverse_append, List.reverse_singleton, List.singleton_append, List.find?_cons]
  cases t <;> simp [Token.isReference]

/-- The pending connective gives way to a bar that follows. -/
theorem connectiveAt_eq (before after : List Token) :
    connectiveAt before after = if BeforeBar after then .or else pendingAfter before := by
  unfold connectiveAt pendingAfter
  by_cases h : BeforeBar after <;> simp [h]

theorem mapIdx_eq_map {α β : Type} {xs : List α} {f : Nat → α → β} {g : α → β}
    (h : ∀ i < xs.length, ∀ x, f i x = g x) : xs.mapIdx f = xs.map g := by
  apply List.ext_getElem
  · simp
  · intro i hi _
    rw [List.length_mapIdx] at hi
    simp [h i hi]

/-- Of the literals of a word with endings, a bar that follows reaches the last one. -/
theorem marked_expansion (before after : List Token) (base : List Char)
    (endings : List (List Char)) (negated : Bool) (ls : List Literal) :
    marked after ((Reading.expansion base endings negated).reverse ++ ls) =
      (literalsAt before (.expansion base endings negated) after).reverse ++ ls := by
  obtain ⟨init, last, hwords⟩ :=
    (List.eq_nil_or_concat (base :: endings.map (base ++ ·))).resolve_left (List.cons_ne_nil _ _)
  rw [List.concat_eq_append] at hwords
  have hlength : endings.length = init.length := by
    simpa using congrArg List.length hwords
  simp only [Reading.expansion, literalsAt, hwords, List.map_append, List.mapIdx_append, hlength]
  -- no word before the last one is at the place that a bar reaches
  rw [mapIdx_eq_map (g := fun w => .word (if negated then .and else .or) (String.ofList w) negated)
    fun i hi w => by simp [Nat.ne_of_lt hi, Literal.word]]
  by_cases h : BeforeBar after <;> simp [marked, h, Literal.word]

theorem push_pending {before : List Token} {r : Reading} (hr : r.pending = pendingAfter before)
    (t : Token) : (r.push t).pending = pendingAfter (before ++ [t]) := by
  unfold pendingAfter
  simp only [afterBar_concat]
  cases t with
  | bar =>
    obtain ⟨literals, pending⟩ := r
    cases literals <;> rfl
  | group k negated => simpa [Reading.push, Token.isReference, pendingAfter] using hr
  | word w negated => simp [Reading.push, Token.isReference]
  | expansion base endings negated => simp [Reading.push, Token.isReference]

/-- What a token adds to the literals, and what a bar after it changes. -/
theorem marked_push {before : List Token} {r : Reading} (hr : r.pending = pendingAfter before)
    (t : Token) (after : List Token) :
    marked after (r.push t).literals =
      (literalsAt before t after).reverse ++ marked (t :: after) r.literals := by
  have hkept : t ≠ .bar → marked (t :: after) r.literals = r.literals := by
    intro ht
    cases r.literals <;> simp [marked, beforeBar_cons, ht]
  cases t with
  | bar =>
    obtain ⟨literals, pending⟩ := r
    cases literals <;> simp [marked, Reading.push, Reading.bar, literalsAt, beforeBar_cons]
  | group k negated =>
    rw [hkept (by simp), Reading.push, literalsAt, connectiveAt_eq, ← hr]
    by_cases h : BeforeBar after <;> simp [marked, h, Literal.group]
  | word w negated =>
    rw [hkept (by simp), Reading.push, literalsAt, connectiveAt_eq, ← hr]
    by_cases h : BeforeBar after <;> simp [marked, h, Literal.word]
  | expansion base endings negated =>
    rw [hkept (by simp)]
    exact marked_expansion before after base endings negated r.literals

theorem foldl_push {before : List Token} {r : Reading} (hr : r.pending = pendingAfter before)
    (ts : List Token) :
    (ts.foldl Reading.push r).literals =
      (literalsAfter before ts).reverse ++ marked ts r.literals := by
  induction ts generalizing before r with
  | nil =>
    cases h : r.literals <;> simp [literalsAfter, marked, BeforeBar, h]
  | cons t after ih =>
    rw [List.foldl_cons, ih (push_pending hr t), marked_push hr, literalsAfter,
      List.reverse_append, List.append_assoc]

/-- **Tokens that are read one after the other give the literals that the tokens around them
tell.** -/
theorem ofTokens_eq (ts : List Token) : ofTokens ts = ⟨literalsOf ts⟩ := by
  have hstart : Reading.start.pending = pendingAfter [] := rfl
  have h := foldl_push hstart ts
  rw [literalsAfter_eq, Reading.start, marked, List.append_nil] at h
  rw [ofTokens, Reading.start, h, List.reverse_reverse]
  rfl

/-! ## Texts of groups -/

theorem mapM_cons_eq_ok {α β ε : Type} {f : α → Except ε β} {x : α} {xs : List α} {ys : List β} :
    (x :: xs).mapM f = .ok ys ↔ ∃ y zs, f x = .ok y ∧ xs.mapM f = .ok zs ∧ ys = y :: zs := by
  rw [List.mapM_cons]
  cases hx : f x with
  | error e => exact iff_of_false nofun (by simp)
  | ok y =>
    cases hxs : xs.mapM f with
    | error e => exact iff_of_false nofun (by simp)
    | ok zs =>
      constructor
      · intro h
        cases h
        exact ⟨y, zs, rfl, rfl, rfl⟩
      · rintro ⟨_, _, hy, hzs, rfl⟩
        cases hy
        cases hzs
        rfl

/-- Each value is given by one of the elements. -/
theorem exists_of_mem_of_mapM_eq_ok {α β ε : Type} {f : α → Except ε β} {xs : List α} {ys : List β}
    (h : xs.mapM f = .ok ys) {y : β} (hy : y ∈ ys) : ∃ x ∈ xs, f x = .ok y := by
  induction xs generalizing ys with
  | nil =>
    cases h
    cases hy
  | cons x xs ih =>
    obtain ⟨z, zs, hz, hzs, rfl⟩ := mapM_cons_eq_ok.1 h
    rcases List.mem_cons.1 hy with rfl | hy
    · exact ⟨x, List.mem_cons_self, hz⟩
    · obtain ⟨x', hx', hf⟩ := ih hzs hy
      exact ⟨x', List.mem_cons_of_mem _ hx', hf⟩

namespace Reading

theorem next_eq_ok_iff {available : Nat} {r r' : Reading} {raw : List Char} :
    next available r raw = .ok r' ↔
      ∃ t, Token.ofChars raw = .ok t ∧ (∀ k negated, t = .group k negated → k < available) ∧
        r' = r.push t := by
  refine ⟨next_eq_ok, ?_⟩
  rintro ⟨t, ht, hk, rfl⟩
  rw [next, ht]
  cases t with
  | group k negated => exact if_pos (hk k negated rfl)
  | bar => rfl
  | word w negated => rfl
  | expansion base endings negated => rfl

/-- Pieces are taken in if all are tokens and the references among them can be followed. -/
theorem foldlM_eq_ok_iff {available : Nat} {pieces : List (List Char)} {r r' : Reading} :
    pieces.foldlM (next available) r = .ok r' ↔
      ∃ ts, pieces.mapM Token.ofChars = .ok ts ∧
        (∀ k negated, Token.group k negated ∈ ts → k < available) ∧ r' = ts.foldl push r := by
  induction pieces generalizing r with
  | nil =>
    constructor
    · intro h
      cases h
      exact ⟨[], rfl, nofun, rfl⟩
    · rintro ⟨ts, hts, -, rfl⟩
      cases hts
      rfl
  | cons raw pieces ih =>
    rw [List.foldlM_cons]
    constructor
    · intro h
      cases hn : next available r raw with
      | error e =>
        rw [hn] at h
        cases h
      | ok r₁ =>
        rw [hn] at h
        obtain ⟨t, ht, hk, rfl⟩ := next_eq_ok hn
        obtain ⟨ts, hts, hks, rfl⟩ := ih.1 h
        refine ⟨t :: ts, mapM_cons_eq_ok.2 ⟨t, ts, ht, hts, rfl⟩, fun k negated hm => ?_, rfl⟩
        rcases List.mem_cons.1 hm with he | hm
        · exact hk k negated he.symm
        · exact hks k negated hm
    · rintro ⟨ts, hts, hk, rfl⟩
      obtain ⟨t, ts, ht, hrest, rfl⟩ := mapM_cons_eq_ok.1 hts
      have hn : next available r raw = .ok (r.push t) :=
        next_eq_ok_iff.2 ⟨t, ht, fun k negated he => hk k negated (he ▸ List.mem_cons_self), rfl⟩
      rw [hn]
      exact ih.2 ⟨ts, hrest, fun k negated hm => hk k negated (List.mem_cons_of_mem _ hm), rfl⟩

end Reading

theorem foldl_push_bars {ts : List Token} (h : ∀ t ∈ ts, t = .bar) {r : Reading}
    (hr : r.literals = []) : (ts.foldl Reading.push r).literals = [] := by
  induction ts generalizing r with
  | nil => exact hr
  | cons t ts ih =>
    obtain ⟨rfl, hts⟩ := List.forall_mem_cons.1 h
    exact ih hts (by rw [Reading.push, Reading.bar, hr])

/-- Bars alone give no literal, and any other token gives one. -/
theorem literals_eq_nil_iff {ts : List Token} :
    (ts.foldl Reading.push Reading.start).literals = [] ↔ ∀ t ∈ ts, t = .bar := by
  constructor
  · intro h t ht
    exact Decidable.byContradiction fun hne => Reading.literals_ne_nil ⟨t, ht, hne⟩ _ h
  · intro h
    exact foldl_push_bars h rfl

theorem ofChars_eq_ok_iff {available : Nat} {text : List Char} {g : Group} :
    ofChars available text = .ok g ↔
      ∃ ts, (Text.segments ' ' (Text.trim text)).mapM Token.ofChars = .ok ts ∧
        (∀ k negated, Token.group k negated ∈ ts → k < available) ∧ (∃ t ∈ ts, t ≠ .bar) ∧
        g = ofTokens ts := by
  unfold ofChars
  constructor
  · intro h
    split at h
    · cases h
    · rename_i r hr
      split at h
      · cases h
      · rename_i hne
        cases h
        obtain ⟨ts, hts, hk, rfl⟩ := Reading.foldlM_eq_ok_iff.1 hr
        refine ⟨ts, hts, hk, ?_, rfl⟩
        simpa using mt literals_eq_nil_iff.2 hne
  · rintro ⟨ts, hts, hk, hne, rfl⟩
    rw [Reading.foldlM_eq_ok_iff.2 ⟨ts, hts, hk, rfl⟩]
    exact if_neg (Reading.literals_ne_nil hne _)

/-- **The literals of a group and their connectives.** A text is read as a group if each of its
pieces is a token, the references can be followed and not all of it is bars. The literals are then
those of the tokens, in their order, each with the connective that the tokens around it tell. -/
theorem ofChars_connectives {available : Nat} {text : List Char} {g : Group} :
    ofChars available text = .ok g ↔
      ∃ ts, (Text.segments ' ' (Text.trim text)).mapM Token.ofChars = .ok ts ∧
        (∀ k negated, Token.group k negated ∈ ts → k < available) ∧ (∃ t ∈ ts, t ≠ .bar) ∧
        g.literals = literalsOf ts := by
  rw [ofChars_eq_ok_iff]
  simp only [ofTokens_eq]
  constructor
  · rintro ⟨ts, hts, hk, hne, rfl⟩
    exact ⟨ts, hts, hk, hne, rfl⟩
  · rintro ⟨ts, hts, hk, hne, hg⟩
    exact ⟨ts, hts, hk, hne, by rw [← hg]⟩

/-- A reference passes the bar before it on to the word after it; a word with endings that is
negated ignores it, and only its last literal is an alternative of what follows. -/
example :
    literalsOf [.bar, .group 0 false, .word ['x'] false, .expansion ['y'] [['s']] true, .bar,
      .group 1 true] =
      [.group .or 0 false, .word .or "x" false, .word .and "y" true, .word .or "ys" true,
        .group .or 1 true] := by
  decide

end Group
end WordLogic
