import WordLogic.Proofs.Condition.Scan
import WordLogic.Proofs.Token

/-!
# Groups from tokens

`Group.ofChars_render`: a group is read from tokens that are joined by spaces. No space may be in
their texts (`Token.Legible`), no blank at the ends of the whole, and not all of them may be bars.

`Group.ofChars_join`: this is so of tokens that rule syntax can write anywhere in a text
(`Token.Fits`): no blank and no parenthesis is in their texts (`Solid`).
-/

namespace WordLogic

/-! ## Texts without blanks and parentheses -/

/-- The text has something in it, and neither begins nor ends with a blank. -/
structure Tight (cs : List Char) : Prop where
  ne_nil : cs ≠ []
  head : ∀ c, cs.head? = some c → Text.isBlank c = false
  last : ∀ c, cs.getLast? = some c → Text.isBlank c = false

/-- No character of the text is a blank or a parenthesis. -/
def Solid (cs : List Char) : Prop := ∀ c ∈ cs, Text.isBlank c = false ∧ c ≠ '(' ∧ c ≠ ')'

theorem Tight.append {xs zs : List Char} (hx : Tight xs) (ys : List Char) (hz : Tight zs) :
    Tight (xs ++ ys ++ zs) where
  ne_nil := by simp [hx.ne_nil]
  head c hc := by
    cases xs with
    | nil => exact absurd rfl hx.ne_nil
    | cons x xs => exact hx.head c hc
  last c hc := by
    have hl := List.getLast?_eq_some_getLast hz.ne_nil
    rw [List.getLast?_append, hl, Option.some_or] at hc
    exact hz.last c (hl.trans hc)

theorem Solid.append {xs ys : List Char} (hx : Solid xs) (hy : Solid ys) : Solid (xs ++ ys) :=
  List.forall_mem_append.2 ⟨hx, hy⟩

theorem Solid.cons {c : Char} {cs : List Char} (hc : Text.isBlank c = false ∧ c ≠ '(' ∧ c ≠ ')')
    (h : Solid cs) : Solid (c :: cs) :=
  List.forall_mem_cons.2 ⟨hc, h⟩

theorem Solid.tight {cs : List Char} (h : Solid cs) (hne : cs ≠ []) : Tight cs where
  ne_nil := hne
  head c hc := (h c (List.mem_of_head? hc)).1
  last c hc := (h c (List.mem_of_getLast? hc)).1

theorem Solid.plain {cs : List Char} (h : Solid cs) : Scan.Plain cs :=
  ⟨fun hm => (h _ hm).2.1 rfl, fun hm => (h _ hm).2.2 rfl⟩

theorem Solid.space_notMem {cs : List Char} (h : Solid cs) : ' ' ∉ cs := by
  intro hm
  exact absurd (h _ hm).1 (by decide)

/-- Pieces without blanks at their ends are joined to a text of this kind. -/
theorem tight_join {pieces : List (List Char)} (hne : pieces ≠ []) (h : ∀ p ∈ pieces, Tight p) :
    Tight (Text.joinSegments ' ' pieces) := by
  induction pieces with
  | nil => exact absurd rfl hne
  | cons p ps ih =>
    obtain ⟨hp, hps⟩ := List.forall_mem_cons.1 h
    cases ps with
    | nil =>
      rw [Text.joinSegments, List.intercalate_singleton]
      exact hp
    | cons q qs =>
      rw [Text.joinSegments, List.intercalate_cons_cons]
      exact hp.append [' '] (ih (List.cons_ne_nil _ _) hps)

namespace Token

theorem sign_solid (negated : Bool) : Solid (sign negated) := by
  cases negated with
  | false => exact nofun
  | true => exact Solid.cons (by decide) nofun

/-- The token can be written among others, and refers to one of the groups that are there. -/
structure Fits (available : Nat) (t : Token) : Prop where
  readable : available ≤ indexBound → t.Readable
  solid : Solid t.render
  group_lt : ∀ k negated, t = .group k negated → k < available

theorem Fits.mono {m n : Nat} {t : Token} (h : t.Fits m) (hmn : m ≤ n) : t.Fits n where
  readable hn := h.readable (Nat.le_trans hmn hn)
  solid := h.solid
  group_lt k negated ht := Nat.lt_of_lt_of_le (h.group_lt k negated ht) hmn

/-- The token can be told among others that are joined by spaces, and refers to one of the groups
that are there. -/
structure Legible (available : Nat) (t : Token) : Prop where
  readable : t.Readable
  space_notMem : ' ' ∉ t.render
  group_lt : ∀ k negated, t = .group k negated → k < available

theorem Fits.legible {available : Nat} {t : Token} (h : t.Fits available)
    (hb : available ≤ indexBound) : t.Legible available where
  readable := h.readable hb
  space_notMem := h.solid.space_notMem
  group_lt := h.group_lt

theorem bar_fits (available : Nat) : bar.Fits available where
  readable _ := trivial
  solid := Solid.cons (by decide) nofun
  group_lt := nofun

theorem group_fits {k available : Nat} (h : k < available) (negated : Bool) :
    (group k negated).Fits available where
  readable hb := Nat.lt_of_lt_of_le h hb
  solid := (sign_solid negated).append fun _ hc =>
    let ⟨ho, hc, hb⟩ := Scan.reference_mem hc
    ⟨hb, ho, hc⟩
  group_lt k' negated' he := by
    cases he
    exact h

theorem render_ne_nil (t : Token) : t.render ≠ [] := by
  cases t <;> simp [render]

end Token

/-! ## Groups from tokens -/

namespace Group

/-- The group that tokens describe. -/
def ofTokens (ts : List Token) : Group :=
  ⟨(ts.foldl Reading.push Reading.start).literals.reverse⟩

namespace Reading

theorem next_render {available : Nat} {t : Token} (ht : t.Legible available) (r : Reading) :
    next available r t.render = .ok (r.push t) := by
  rw [next, Token.ofChars_render ht.readable]
  cases t with
  | group k negated => exact if_pos (ht.group_lt k negated rfl)
  | bar => rfl
  | word w negated => rfl
  | expansion base endings negated => rfl

theorem foldlM_render {available : Nat} {ts : List Token} (ht : ∀ t ∈ ts, t.Legible available)
    (r : Reading) : (ts.map Token.render).foldlM (next available) r = .ok (ts.foldl push r) := by
  induction ts generalizing r with
  | nil => rfl
  | cons t ts ih =>
    obtain ⟨ht, hts⟩ := List.forall_mem_cons.1 ht
    rw [List.map_cons, List.foldlM_cons, next_render ht]
    exact ih hts _

/-- Every token but the bar gives a literal. -/
theorem push_ne_nil {t : Token} (ht : t ≠ .bar) (r : Reading) : (r.push t).literals ≠ [] := by
  cases t with
  | bar => exact absurd rfl ht
  | group k negated => exact List.cons_ne_nil _ _
  | word w negated => exact List.cons_ne_nil _ _
  | expansion base endings negated => simp [push, expansion]

/-- No literal is lost. -/
theorem foldl_push_ne_nil {r : Reading} (h : r.literals ≠ []) (ts : List Token) :
    (ts.foldl push r).literals ≠ [] := by
  induction ts generalizing r with
  | nil => exact h
  | cons t ts ih =>
    apply ih
    by_cases ht : t = .bar
    · obtain ⟨literals, pending⟩ := r
      subst ht
      cases literals with
      | nil => exact absurd rfl h
      | cons l ls => exact List.cons_ne_nil _ _
    · exact push_ne_nil ht r

theorem literals_ne_nil {ts : List Token} (h : ∃ t ∈ ts, t ≠ .bar) (r : Reading) :
    (ts.foldl push r).literals ≠ [] := by
  obtain ⟨t, hm, ht⟩ := h
  obtain ⟨before, after, rfl⟩ := List.append_of_mem hm
  rw [List.foldl_append, List.foldl_cons]
  exact foldl_push_ne_nil (push_ne_nil ht _) after

end Reading

/-- **A group is read from tokens that are joined by spaces.** -/
theorem ofChars_render {available : Nat} {ts : List Token} (ht : ∀ t ∈ ts, t.Legible available)
    (hne : ∃ t ∈ ts, t ≠ .bar) (htight : Tight (Text.joinSegments ' ' (ts.map Token.render))) :
    ofChars available (Text.joinSegments ' ' (ts.map Token.render)) = .ok (ofTokens ts) := by
  have hpieces : ts.map Token.render ≠ [] := by
    obtain ⟨t, hm, -⟩ := hne
    exact List.ne_nil_of_mem (List.mem_map_of_mem hm)
  have hsegments : Text.segments ' ' (Text.joinSegments ' ' (ts.map Token.render)) =
      ts.map Token.render := by
    apply Text.segments_join hpieces
    intro p hp
    obtain ⟨t, hm, rfl⟩ := List.mem_map.1 hp
    exact (ht t hm).space_notMem
  rw [ofChars, Text.trim_eq_self htight.head htight.last, hsegments, Reading.foldlM_render ht]
  exact if_neg (Reading.literals_ne_nil hne _)

/-- Tokens without blanks have none at the ends of the text that joins them. -/
theorem ofChars_join {available : Nat} (hb : available ≤ Token.indexBound) {ts : List Token}
    (ht : ∀ t ∈ ts, t.Fits available) (hne : ∃ t ∈ ts, t ≠ .bar) :
    ofChars available (Text.joinSegments ' ' (ts.map Token.render)) = .ok (ofTokens ts) := by
  have hpieces : ts.map Token.render ≠ [] := by
    obtain ⟨t, hm, -⟩ := hne
    exact List.ne_nil_of_mem (List.mem_map_of_mem hm)
  refine ofChars_render (fun t hm => (ht t hm).legible hb) hne (tight_join hpieces fun p hp => ?_)
  obtain ⟨t, hm, rfl⟩ := List.mem_map.1 hp
  exact (ht t hm).solid.tight t.render_ne_nil

end Group

end WordLogic
