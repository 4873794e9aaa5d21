import WordLogic.Proofs.Group.Tokens
import WordLogic.Proofs.Tree

/-!
# The text of a tree, read

Reading the text of a tree leaves a row of tokens, with references in place of the nested bodies,
and a group for each nested body (`Body.flat`).

* `Yields`: a text, read after some groups, leaves this. It is closed under putting texts together
  with a space or a bar between them, and under parentheses.
* `Body.yields`: hence the text of a body leaves what `Body.flat` says.
-/

namespace WordLogic.Tree

/-! ## What a text leaves -/

/-- What is left of a part of a text: the groups so far, and the tokens with references in place of
the nested bodies. -/
structure Flat where
  groups : List Group
  tokens : List Token

namespace Flat

/-- The tokens as text. -/
def text (f : Flat) : List Char := Text.joinSegments ' ' (f.tokens.map Token.render)

/-- The state of a scan after the part. -/
def after (f : Flat) (st : Scan) : Scan := ⟨f.groups, st.outer, st.current ++ f.text⟩

/-- What is left of two parts with a space between them. -/
def next (f g : Flat) : Flat := ⟨g.groups, f.tokens ++ g.tokens⟩

/-- What is left of two parts with a bar between them. -/
def or (f g : Flat) : Flat := ⟨g.groups, f.tokens ++ .bar :: g.tokens⟩

/-- What is left of a part in parentheses. -/
def nested (f : Flat) (negated : Bool) : Flat :=
  ⟨f.groups ++ [.ofTokens f.tokens], [.group f.groups.length negated]⟩

theorem text_singleton (gs : List Group) (t : Token) : (Flat.mk gs [t]).text = t.render := by
  rw [text, List.map_singleton, Text.joinSegments, List.intercalate_singleton]

theorem text_next {f g : Flat} (hf : f.tokens ≠ []) (hg : g.tokens ≠ []) :
    (f.next g).text = f.text ++ ' ' :: g.text := by
  rw [text, next, List.map_append]
  exact Text.joinSegments_append (by simp [hf]) (by simp [hg])

end Flat

/-- The text of the second part goes behind a space. -/
theorem Flat.after_next {f g : Flat} (hf : f.tokens ≠ []) (hg : g.tokens ≠ []) (st : Scan) :
    (f.next g).after st =
      g.after { f.after st with current := (f.after st).current ++ [' '] } := by
  simp only [after, text_next hf hg, List.append_assoc, List.singleton_append]
  rfl

/-- A text, read after the groups `gs`, leaves `f`, so long as the references can be read. -/
structure Passes (gs : List Group) (cs : List Char) (f : Flat) : Prop where
  grows : gs <+: f.groups
  length_groups : f.groups.length = gs.length + cs.count ')'
  tokens_ne_nil : f.tokens ≠ []
  fits : ∀ t ∈ f.tokens, t.Fits f.groups.length
  tight : Tight cs
  advance : f.groups.length ≤ Token.indexBound → ∀ st : Scan, st.groups = gs →
    ∀ rest, st.advance cs rest = .ok (f.after st)

/-- Moreover, the tokens are not all bars. -/
structure Yields (gs : List Group) (cs : List Char) (f : Flat) : Prop extends Passes gs cs f where
  ne_bar : ∃ t ∈ f.tokens, t ≠ .bar

section Yields

variable {gs : List Group} {xs ys cs : List Char} {f g : Flat}

theorem passes_token {t : Token} (h : t.Fits gs.length) : Passes gs t.render ⟨gs, [t]⟩ where
  grows := List.prefix_rfl
  length_groups := by
    rw [List.count_eq_zero.2 h.solid.plain.2, Nat.add_zero]
  tokens_ne_nil := List.cons_ne_nil _ _
  fits := List.forall_mem_singleton.2 h
  tight := h.solid.tight t.render_ne_nil
  advance _ st hst rest := by
    rw [Scan.advance_plain h.solid.plain.1 h.solid.plain.2, Flat.after, Flat.text_singleton, ← hst]

theorem yields_token {t : Token} (h : t.Fits gs.length) (ht : t ≠ .bar) :
    Yields gs t.render ⟨gs, [t]⟩ where
  toPasses := passes_token h
  ne_bar := ⟨t, List.mem_singleton_self t, ht⟩

/-- Two parts with a space between them leave what they leave one after the other. -/
theorem Passes.next (hf : Passes gs xs f) (hg : Passes f.groups ys g) :
    Passes gs (xs ++ ' ' :: ys) (f.next g) where
  grows := hf.grows.trans hg.grows
  length_groups := by
    show g.groups.length = _
    rw [hg.length_groups, hf.length_groups, List.count_append, List.count_cons_of_ne (by decide),
      Nat.add_assoc]
  tokens_ne_nil := by simp [Flat.next, hf.tokens_ne_nil]
  fits := List.forall_mem_append.2
    ⟨fun t ht => (hf.fits t ht).mono hg.grows.length_le, hg.fits⟩
  tight := by
    have ht := hf.tight.append [' '] hg.tight
    rwa [List.append_assoc, List.singleton_append] at ht
  advance hb st hst rest := by
    have hfirst := hf.advance (Nat.le_trans hg.grows.length_le hb) st hst (' ' :: ys ++ rest)
    have hspace : (f.after st).advance [' '] (ys ++ rest) = _ :=
      Scan.advance_plain (by decide) (by decide) _ _
    rw [Flat.after_next hf.tokens_ne_nil hg.tokens_ne_nil]
    exact Scan.advance_trans hfirst (Scan.advance_trans hspace (hg.advance hb _ rfl rest))

theorem Yields.next (hf : Yields gs xs f) (hg : Yields f.groups ys g) :
    Yields gs (xs ++ ' ' :: ys) (f.next g) where
  toPasses := hf.toPasses.next hg.toPasses
  ne_bar := by
    obtain ⟨t, hm, ht⟩ := hf.ne_bar
    exact ⟨t, List.mem_append_left _ hm, ht⟩

/-- A bar is a part of its own. -/
theorem Yields.or (hf : Yields gs xs f) (hg : Yields f.groups ys g) :
    Yields gs (xs ++ ' ' :: '|' :: ' ' :: ys) (f.or g) where
  toPasses := hf.toPasses.next ((passes_token (Token.bar_fits _)).next hg.toPasses)
  ne_bar := by
    obtain ⟨t, hm, ht⟩ := hf.ne_bar
    exact ⟨t, List.mem_append_left _ hm, ht⟩

/-- A part in parentheses leaves a group and a reference to it. -/
theorem Yields.nested (h : Yields gs cs f) (negated : Bool) :
    Yields gs (Token.sign negated ++ '(' :: cs ++ [')']) (f.nested negated) where
  grows := h.grows.trans (List.prefix_append _ _)
  length_groups := by
    have hsign := List.count_eq_zero.2 (Token.sign_solid negated).plain.2
    have hopen : ('(' :: cs).count ')' = cs.count ')' := List.count_cons_of_ne (by decide)
    rw [List.count_append, List.count_append, hsign, hopen]
    show (f.groups ++ [_]).length = _
    rw [List.length_append, h.length_groups]
    simp [Nat.add_assoc]
  tokens_ne_nil := List.cons_ne_nil _ _
  fits := List.forall_mem_singleton.2 (Token.group_fits (by simp [Flat.nested]) negated)
  tight := by
    refine ⟨by simp, fun c hc => ?_, fun c hc => ?_⟩
    · cases negated <;> cases hc <;> rfl
    · rw [List.getLast?_concat] at hc
      cases hc
      rfl
  advance hb st hst rest := by
    have hbound : f.groups.length ≤ Token.indexBound := by
      have hlength : (f.nested negated).groups.length = f.groups.length + 1 := List.length_append
      omega
    have hsign := (Token.sign_solid negated).plain
    have hmark := Scan.advance_plain hsign.1 hsign.2 st ('(' :: (cs ++ [')']) ++ rest)
    have hopen := Scan.advance_open { st with current := st.current ++ Token.sign negated }
      (cs ++ [')'] ++ rest)
    have hinner := h.advance hbound ⟨st.groups, (st.current ++ Token.sign negated) :: st.outer, []⟩
      hst ([')'] ++ rest)
    have hgroup : Group.ofChars f.groups.length f.text = .ok (.ofTokens f.tokens) :=
      Group.ofChars_join hbound h.fits h.ne_bar
    -- when the `)` comes, the buffer on top holds the tokens of what is in the parentheses
    have hclose : (f.after ⟨st.groups, (st.current ++ Token.sign negated) :: st.outer, []⟩).advance
        [')'] rest = .ok ((f.nested negated).after st) := by
      rw [Scan.advance_closing]
      simp only [Scan.close, Flat.after, List.nil_append, hgroup]
      rw [Flat.nested, Flat.text_singleton, Token.render, List.append_assoc]
      rfl
    rw [List.append_assoc]
    show st.advance (Token.sign negated ++ (['('] ++ (cs ++ [')']))) rest = _
    exact Scan.advance_trans hmark
      (Scan.advance_trans hopen (Scan.advance_trans hinner hclose))
  ne_bar := ⟨_, List.mem_singleton_self _, nofun⟩

end Yields

/-! ## What the text of a tree leaves -/

mutual

/-- What the text of a leaf leaves. -/
def Leaf.flat (gs : List Group) : Leaf → Flat
  | .word w negated => ⟨gs, [.word w.chars negated]⟩
  | .nested b negated => (b.flat gs).nested negated

/-- What the text of a member leaves. -/
def Member.flat (gs : List Group) : Member → Flat
  | .leaf l => l.flat gs
  | .expansion e => ⟨gs, [e.token false]⟩

/-- What the text of members leaves. -/
def Members.flat (gs : List Group) : Members → Flat
  | .one m => m.flat gs
  | .more m ms => (m.flat gs).or (ms.flat (m.flat gs).groups)

/-- What the text of an item leaves. -/
def Item.flat (gs : List Group) : Item → Flat
  | .single l => l.flat gs
  | .run m ms => (m.flat gs).or (ms.flat (m.flat gs).groups)
  | .expansion e => ⟨gs, [e.token false]⟩
  | .negatedExpansion e => ⟨gs, [e.token true]⟩

/-- What the text of a body leaves. -/
def Body.flat (gs : List Group) : Body → Flat
  | .one i => i.flat gs
  | .more i b => (i.flat gs).next (b.flat (i.flat gs).groups)

end

theorem Word.solid (w : Word) : Solid w.chars := fun c hc =>
  let ⟨hblank, hopen, hclose, _⟩ := w.isWordChar c hc
  ⟨hblank, hopen, hclose⟩

theorem Word.isName (w : Word) : Token.IsName w.chars :=
  ⟨w.ne_nil, fun c hc => (w.isWordChar c hc).2.2.2⟩

theorem Word.token_fits (w : Word) (negated : Bool) (available : Nat) :
    (Token.word w.chars negated).Fits available where
  readable _ := w.isName
  solid := (Token.sign_solid negated).append (w.solid.cons (by decide))
  group_lt := nofun

/-- The endings of an expansion are the characters of its endings. -/
theorem Expansion.exists_ending {e : Expansion} {cs : List Char} (h : cs ∈ e.endings) :
    ∃ ending : Ending, ending.chars = cs := by
  rcases List.mem_cons.1 h with rfl | h
  · exact ⟨e.first, rfl⟩
  · obtain ⟨ending, -, rfl⟩ := List.mem_map.1 h
    exact ⟨ending, rfl⟩

theorem Expansion.token_fits (e : Expansion) (negated : Bool) (available : Nat) :
    (e.token negated).Fits available where
  readable _ := by
    refine ⟨e.base.isName, List.cons_ne_nil _ _, fun cs hcs => ?_⟩
    obtain ⟨ending, rfl⟩ := exists_ending hcs
    exact ⟨ending.isName, ending.slash_notMem⟩
  solid := by
    have hjoin : Solid (Text.joinSegments '/' e.endings) := by
      intro c hc
      obtain rfl | ⟨cs, hcs, hc⟩ := Text.mem_joinSegments hc
      · decide
      · obtain ⟨ending, rfl⟩ := exists_ending hcs
        exact ending.solid c hc
    exact ((Token.sign_solid negated).append (e.base.solid.cons (by decide))).append
      (hjoin.cons (by decide)) |>.append (Solid.cons (by decide) nofun)
  group_lt := nofun

mutual

theorem Leaf.yields (gs : List Group) : (l : Leaf) → Yields gs l.render (l.flat gs)
  | .word w negated => yields_token (w.token_fits negated _) nofun
  | .nested b negated => (b.yields gs).nested negated

theorem Member.yields (gs : List Group) : (m : Member) → Yields gs m.render (m.flat gs)
  | .leaf l => l.yields gs
  | .expansion e => yields_token (e.token_fits false _) nofun

theorem Members.yields (gs : List Group) : (ms : Members) → Yields gs ms.render (ms.flat gs)
  | .one m => m.yields gs
  | .more m ms => (m.yields gs).or (ms.yields _)

theorem Item.yields (gs : List Group) : (i : Item) → Yields gs i.render (i.flat gs)
  | .single l => l.yields gs
  | .run m ms => (m.yields gs).or (ms.yields _)
  | .expansion e => yields_token (e.token_fits false _) nofun
  | .negatedExpansion e => yields_token (e.token_fits true _) nofun

/-- **The text of a body leaves what `Body.flat` says.** -/
theorem Body.yields (gs : List Group) : (b : Body) → Yields gs b.render (b.flat gs)
  | .one i => i.yields gs
  | .more i b => (i.yields gs).next (b.yields _)

end

end WordLogic.Tree
