import Mathlib
import WordLogic.Proofs.Text.Segments
import WordLogic.Proofs.Token

/-!
# The grammar of tokens

`Token.WrittenAs` says which texts write a token, without regard to how they are read. `Token.parse`
is the reader of tokens put together from small ones: a run of characters, a list of runs with a
separator between neighbours, a part that may be missing. These can go back: a list of runs gives
back a separator that no run follows, and brackets that hold no list of endings are given back as
a whole, so that the text is not read to its end.

* `word?_eq_whole`, `parse_eq_ofChars`: the small readers together are `Token.ofChars`.
* `ofChars_eq_ok_iff`: the texts that are accepted are those of the grammar.
* `ofChars_accepts`: both, with the faults of the texts that are refused.
-/

namespace WordLogic

namespace Token

/-! ## The grammar -/

/-- The endings of a word as they can stand in brackets: there is one, none is empty, and no bracket
and no slash is in them. -/
structure AreEndings (endings : List (List Char)) : Prop where
  ne_nil : endings ≠ []
  isName : ∀ ending ∈ endings, IsName ending ∧ '/' ∉ ending

/-- The text writes the token. A bar may have anything after it, and an index may have zeros in
front. -/
inductive WrittenAs : Token → List Char → Prop
  | bar (rest : List Char) : WrittenAs .bar ('|' :: rest)
  | group (negated : Bool) {digits : List Char} (hne : digits ≠ [])
      (hdigits : ∀ c ∈ digits, c.isDigit = true)
      (hlt : Nat.ofDigitChars 10 digits 0 < 2 ^ 64) :
      WrittenAs (.group (Nat.ofDigitChars 10 digits 0) negated) (sign negated ++ '#' :: digits)
  | word (negated : Bool) {w : List Char} (hw : IsName w) :
      WrittenAs (.word w negated) (sign negated ++ '&' :: w)
  | expansion (negated : Bool) {base : List Char} {endings : List (List Char)} (hbase : IsName base)
      (hendings : AreEndings endings) :
      WrittenAs (.expansion base endings negated)
        (sign negated ++ '&' :: base ++ '[' :: Text.joinSegments '/' endings ++ [']'])

/-- The fault of a text that is no token, when its `!`, if any, was taken off: `raw` is the whole
text. -/
def bodyFault (raw : List Char) : List Char → TextError
  | '#' :: _ => .badReference (String.ofList raw)
  | '&' :: _ :: _ => .badBrackets (String.ofList raw)
  | _ => .unknownToken (String.ofList raw)

/-- The fault of a text that is no token. It depends on the characters at the start, after at most
one `!`. -/
def fault : List Char → TextError
  | '!' :: body => bodyFault ('!' :: body) body
  | raw => bodyFault raw raw

/-! ## Small readers -/

/-- Takes a value off the start of a text and says what is left, or fails. -/
abbrev Reader (α : Type) := List Char → Option (α × List Char)

namespace Reader

variable {α : Type}

/-- The character `c`. -/
def char (c : Char) : Reader Unit
  | [] => none
  | x :: cs => if x = c then some ((), cs) else none

/-- The longest run of characters that pass a test. There must be one. -/
def run (p : Char → Bool) : Reader (List Char) := fun cs =>
  if cs.takeWhile p = [] then none else some (cs.takeWhile p, cs.dropWhile p)

/-- A part that may be missing: if the reader fails, nothing is taken. -/
def optional (r : Reader α) : Reader (Option α) := fun cs =>
  match r cs with
  | none => some (none, cs)
  | some (a, rest) => some (some a, rest)

/-- A part between two characters. -/
def between (first last : Char) (r : Reader α) : Reader α := fun cs => do
  let (_, cs) ← char first cs
  let (a, cs) ← r cs
  let (_, cs) ← char last cs
  return (a, cs)

/-- What is left of a run is shorter than the text. -/
theorem length_run {p : Char → Bool} {cs w rest : List Char} (h : run p cs = some (w, rest)) :
    rest.length < cs.length := by
  unfold run at h
  split at h
  · cases h
  · rename_i hne
    cases h
    have hlen := congrArg List.length (List.takeWhile_append_dropWhile (p := p) (l := cs))
    have hpos := List.length_pos_iff.2 hne
    rw [List.length_append] at hlen
    omega

/-- Runs, each behind a separator, as many as there are. A separator that no run follows is given
back. -/
def moreRuns (p : Char → Bool) (sep : Char) (cs : List Char) : List (List Char) × List Char :=
  match cs with
  | [] => ([], [])
  | c :: after =>
    if c = sep then
      match _h : run p after with
      | none => ([], c :: after)
      | some (w, rest) => (w :: (moreRuns p sep rest).1, (moreRuns p sep rest).2)
    else ([], c :: after)
termination_by cs.length
decreasing_by
  all_goals
    have := length_run ‹_›
    simp only [List.length_cons]
    omega

/-- Runs with a separator between neighbours, at least one. -/
def runs (p : Char → Bool) (sep : Char) : Reader (List (List Char)) := fun cs => do
  let (w, rest) ← run p cs
  return (w :: (moreRuns p sep rest).1, (moreRuns p sep rest).2)

/-- The value of a text that is taken to its end. -/
def whole (r : Reader α) (cs : List Char) : Option α :=
  match r cs with
  | some (a, []) => some a
  | _ => none

end Reader

/-- A character of an ending. -/
def isEndingChar (c : Char) : Bool := !isBracket c && c != '/'

/-- The endings of a word, in brackets. -/
def endingsReader : Reader (List (List Char)) :=
  Reader.between '[' ']' (Reader.runs isEndingChar '/')

/-- A word and its endings, if it has any. -/
def wordReader : Reader (List Char × Option (List (List Char))) := fun cs => do
  let (base, cs) ← Reader.run (!isBracket ·) cs
  let (endings, cs) ← Reader.optional endingsReader cs
  return ((base, endings), cs)

/-- The index of a reference, with its mark. -/
def indexReader : Reader Nat := fun cs => do
  let (_, cs) ← Reader.char '#' cs
  let (digits, cs) ← Reader.run Char.isDigit cs
  if Nat.ofDigitChars 10 digits 0 < 2 ^ 64 then return (Nat.ofDigitChars 10 digits 0, cs)
  else none

/-- The token that a word and its endings make. -/
def ofParts (negated : Bool) : List Char × Option (List (List Char)) → Token
  | (w, none) => .word w negated
  | (base, some endings) => .expansion base endings negated

/-- Reads a token whose `!`, if any, was taken off: `raw` is the whole token. -/
def parseBody (raw : List Char) (negated : Bool) : List Char → Except TextError Token
  | '#' :: digits =>
    match Reader.whole indexReader ('#' :: digits) with
    | some k => .ok (.group k negated)
    | none => .error (.badReference (String.ofList raw))
  | '|' :: _ =>
    if negated then .error (.unknownToken (String.ofList raw)) else .ok .bar
  | '&' :: c :: cs =>
    match Reader.whole wordReader (c :: cs) with
    | some parts => .ok (ofParts negated parts)
    | none => .error (.badBrackets (String.ofList raw))
  | _ => .error (.unknownToken (String.ofList raw))

/-- Reads a token with the small readers. -/
def parse : List Char → Except TextError Token
  | '!' :: body => parseBody ('!' :: body) true body
  | raw => parseBody raw false raw

/-! ## What the small readers take -/

namespace Reader

variable {p : Char → Bool} {sep : Char}

theorem run_append {w r : List Char} (hne : w ≠ []) (hw : ∀ c ∈ w, p c = true)
    (hr : ∀ c ∈ r.head?, p c = false) : run p (w ++ r) = some (w, r) := by
  have hcut : (w ++ r).takeWhile p = w ∧ (w ++ r).dropWhile p = r := by
    cases r with
    | nil =>
      rw [List.append_nil]
      exact Text.span_eq_self hw
    | cons stop r => exact Text.span_append hw (hr stop rfl) r
  rw [run, hcut.1, hcut.2, if_neg hne]

theorem run_eq_some {cs w r : List Char} (h : run p cs = some (w, r)) :
    cs = w ++ r ∧ w ≠ [] ∧ ∀ c ∈ w, p c = true := by
  unfold run at h
  split at h
  · cases h
  · rename_i hne
    cases h
    exact ⟨List.takeWhile_append_dropWhile.symm, hne, fun _ => List.mem_takeWhile_imp⟩

/-- After runs behind separators, or none, comes a separator or what stops them. -/
theorem avoids_separated (hsep : p sep = false) {stop : Char} (hstop : p stop = false)
    (ws : List (List Char)) (r : List Char) :
    ∀ c ∈ (ws.flatMap (sep :: ·) ++ stop :: r).head?, p c = false := by
  intro c hc
  cases ws with
  | nil =>
    cases hc
    exact hstop
  | cons w ws =>
    cases hc
    exact hsep

/-- The runs that are taken are all there are before `stop`. -/
theorem moreRuns_append (hsep : p sep = false) {stop : Char} (hne : stop ≠ sep)
    (hstop : p stop = false) {ws : List (List Char)}
    (hws : ∀ w ∈ ws, w ≠ [] ∧ ∀ c ∈ w, p c = true) (r : List Char) :
    moreRuns p sep (ws.flatMap (sep :: ·) ++ stop :: r) = (ws, stop :: r) := by
  induction ws with
  | nil =>
    rw [List.flatMap_nil, List.nil_append, moreRuns, if_neg hne]
  | cons w ws ih =>
    obtain ⟨⟨hw, hall⟩, hws⟩ := List.forall_mem_cons.1 hws
    have hrun := run_append hw hall (avoids_separated hsep hstop ws r)
    rw [List.flatMap_cons, List.cons_append, List.cons_append, List.append_assoc, moreRuns,
      if_pos rfl]
    split
    · rename_i he
      rw [hrun] at he
      cases he
    · rename_i he
      rw [hrun] at he
      cases he
      rw [ih hws]

theorem moreRuns_eq (p : Char → Bool) (sep : Char) (cs : List Char) :
    cs = (moreRuns p sep cs).1.flatMap (sep :: ·) ++ (moreRuns p sep cs).2 ∧
      ∀ w ∈ (moreRuns p sep cs).1, w ≠ [] ∧ ∀ c ∈ w, p c = true := by
  fun_induction moreRuns p sep cs with
  | case1 => exact ⟨rfl, nofun⟩
  | case2 => exact ⟨rfl, nofun⟩
  | case3 after w rest hrun ih =>
    obtain ⟨rfl, hne, hw⟩ := run_eq_some hrun
    obtain ⟨hrest, hws⟩ := ih
    refine ⟨?_, List.forall_mem_cons.2 ⟨⟨hne, hw⟩, hws⟩⟩
    rw [List.flatMap_cons, List.append_assoc, ← hrest]
    rfl
  | case4 => exact ⟨rfl, nofun⟩

theorem runs_append (hsep : p sep = false) {stop : Char} (hne : stop ≠ sep)
    (hstop : p stop = false) {ws : List (List Char)} (hnil : ws ≠ [])
    (hws : ∀ w ∈ ws, w ≠ [] ∧ ∀ c ∈ w, p c = true) (r : List Char) :
    runs p sep (Text.joinSegments sep ws ++ stop :: r) = some (ws, stop :: r) := by
  cases ws with
  | nil => exact absurd rfl hnil
  | cons w ws =>
    obtain ⟨⟨hw, hall⟩, hws⟩ := List.forall_mem_cons.1 hws
    have hrun := run_append hw hall (avoids_separated hsep hstop ws r)
    rw [Text.joinSegments_cons, List.append_assoc, runs, hrun]
    simp only [Option.bind_eq_bind, Option.bind_some, moreRuns_append hsep hne hstop hws]
    rfl

theorem runs_eq_some {cs r : List Char} {ws : List (List Char)} (h : runs p sep cs = some (ws, r)) :
    cs = Text.joinSegments sep ws ++ r ∧ ws ≠ [] ∧ ∀ w ∈ ws, w ≠ [] ∧ ∀ c ∈ w, p c = true := by
  unfold runs at h
  simp only [Option.bind_eq_bind, Option.bind_eq_some_iff, Prod.exists] at h
  obtain ⟨w, rest, hw, he⟩ := h
  cases he
  obtain ⟨rfl, hne, hall⟩ := run_eq_some hw
  obtain ⟨hrest, hws⟩ := moreRuns_eq p sep rest
  refine ⟨?_, List.cons_ne_nil _ _, List.forall_mem_cons.2 ⟨⟨hne, hall⟩, hws⟩⟩
  rw [Text.joinSegments_cons, List.append_assoc, ← hrest]

theorem char_eq_some {c : Char} {cs rest : List Char} {u : Unit}
    (h : char c cs = some (u, rest)) : cs = c :: rest := by
  cases cs with
  | nil => cases h
  | cons x cs =>
    rw [char] at h
    split at h
    · rename_i hx
      cases h
      rw [hx]
    · cases h

theorem between_eq_some {α : Type} {first last : Char} {r : Reader α} {cs rest : List Char} {a : α}
    (h : between first last r cs = some (a, rest)) :
    ∃ inner, cs = first :: inner ∧ r inner = some (a, last :: rest) := by
  simp only [between, Option.bind_eq_bind, Option.bind_eq_some_iff, Prod.exists] at h
  obtain ⟨_, inner, hfirst, a', after, hr, _, rest', hlast, he⟩ := h
  cases he
  exact ⟨inner, char_eq_some hfirst, char_eq_some hlast ▸ hr⟩

theorem whole_eq_some {α : Type} {r : Reader α} {cs : List Char} {a : α} :
    whole r cs = some a ↔ r cs = some (a, []) := by
  unfold whole
  constructor
  · intro h
    split at h
    · cases h
      assumption
    · cases h
  · intro h
    rw [h]

end Reader

theorem isEndingChar_iff {c : Char} : isEndingChar c = true ↔ isBracket c = false ∧ c ≠ '/' := by
  simp [isEndingChar]

theorem areEndings_iff {endings : List (List Char)} :
    AreEndings endings ↔
      endings ≠ [] ∧ ∀ w ∈ endings, w ≠ [] ∧ ∀ c ∈ w, isEndingChar c = true := by
  constructor
  · rintro ⟨hne, hall⟩
    refine ⟨hne, fun w hw => ⟨(hall w hw).1.1, fun c hc => ?_⟩⟩
    refine isEndingChar_iff.2 ⟨(hall w hw).1.2 c hc, ?_⟩
    rintro rfl
    exact (hall w hw).2 hc
  · rintro ⟨hne, hall⟩
    refine ⟨hne, fun w hw => ⟨⟨(hall w hw).1, fun c hc => ?_⟩, fun hc => ?_⟩⟩
    · exact (isEndingChar_iff.1 ((hall w hw).2 c hc)).1
    · exact (isEndingChar_iff.1 ((hall w hw).2 _ hc)).2 rfl

theorem endingsReader_append {endings : List (List Char)} (h : AreEndings endings) (r : List Char) :
    endingsReader ('[' :: Text.joinSegments '/' endings ++ ']' :: r) = some (endings, r) := by
  obtain ⟨hne, hall⟩ := areEndings_iff.1 h
  have hsep : isEndingChar '/' = false := rfl
  have hstop : isEndingChar ']' = false := rfl
  have hruns := Reader.runs_append hsep (by decide) hstop hne hall r
  rw [endingsReader, Reader.between, List.cons_append]
  simp [Reader.char, hruns]

theorem endingsReader_eq_some {cs r : List Char} {endings : List (List Char)}
    (h : endingsReader cs = some (endings, r)) :
    AreEndings endings ∧ cs = '[' :: Text.joinSegments '/' endings ++ ']' :: r := by
  obtain ⟨inner, rfl, hruns⟩ := Reader.between_eq_some h
  obtain ⟨rfl, hne, hall⟩ := Reader.runs_eq_some hruns
  exact ⟨areEndings_iff.2 ⟨hne, hall⟩, rfl⟩

/-! ## A word and its endings -/

/-- What can follow the `&` of a token: a word, with its endings if it has any. -/
def AreParts (parts : List Char × Option (List (List Char))) : Prop :=
  IsName parts.1 ∧ ∀ endings ∈ parts.2, AreEndings endings

/-- The text of a word and its endings. -/
def partsText : List Char × Option (List (List Char)) → List Char
  | (w, none) => w
  | (base, some endings) => base ++ ('[' :: Text.joinSegments '/' endings ++ [']'])

theorem whole_wordReader_eq_some {cs : List Char} {parts : List Char × Option (List (List Char))} :
    Reader.whole wordReader cs = some parts ↔ AreParts parts ∧ cs = partsText parts := by
  rw [Reader.whole_eq_some, wordReader]
  constructor
  · intro h
    simp only [Option.bind_eq_bind, Option.bind_eq_some_iff, Prod.exists] at h
    obtain ⟨base, rest, hrun, endings, left, hopt, he⟩ := h
    cases he
    obtain ⟨rfl, hne, hall⟩ := Reader.run_eq_some hrun
    have hbase : IsName base := ⟨hne, fun c hc => by simpa using hall c hc⟩
    unfold Reader.optional at hopt
    split at hopt
    · cases hopt
      exact ⟨⟨hbase, nofun⟩, List.append_nil _⟩
    · rename_i es rest' hes
      cases hopt
      obtain ⟨hendings, rfl⟩ := endingsReader_eq_some hes
      refine ⟨⟨hbase, ?_⟩, rfl⟩
      rintro _ ⟨⟩
      exact hendings
  · rintro ⟨⟨hbase, hendings⟩, rfl⟩
    obtain ⟨base, endings⟩ := parts
    cases endings with
    | none =>
      have hrun := Reader.run_append hbase.1 (not_isBracket hbase.2) (r := []) nofun
      rw [List.append_nil] at hrun
      simp [partsText, hrun, Reader.optional, endingsReader, Reader.between, Reader.char]
    | some endings =>
      have hlist := endingsReader_append (hendings endings rfl) []
      have hrun := Reader.run_append hbase.1 (not_isBracket hbase.2)
        (r := '[' :: Text.joinSegments '/' endings ++ [']']) (by rintro c ⟨⟩; rfl)
      simp only at hrun
      simp only [partsText, hrun, Option.bind_eq_bind, Option.bind_some, Reader.optional, hlist]
      rfl

theorem endings?_eq_some {cs : List Char} {endings : List (List Char)}
    (h : endings? cs = some endings) :
    AreEndings endings ∧ cs = '[' :: Text.joinSegments '/' endings ++ [']'] := by
  unfold endings? at h
  split at h
  · rename_i cs
    simp only at h
    split at h
    · rename_i hclose
      cases h
      refine ⟨⟨Text.segments_ne_nil _ _, fun ending he => ⟨⟨?_, fun c hc => ?_⟩, ?_⟩⟩, ?_⟩
      · rintro rfl
        exact hclose.2 he
      · simpa using List.mem_takeWhile_imp (Text.mem_of_mem_segments he c hc)
      · exact Text.not_mem_of_mem_segments he
      · rw [Text.join_segments, List.cons_append, ← hclose.1, List.takeWhile_append_dropWhile]
    · cases h
  · cases h

theorem word?_eq_some {cs : List Char} {negated : Bool} {t : Token} :
    word? cs negated = some t ↔
      ∃ parts, AreParts parts ∧ cs = partsText parts ∧ t = ofParts negated parts := by
  constructor
  · intro h
    have hcut := List.takeWhile_append_dropWhile (p := (!isBracket ·)) (l := cs)
    have hbase : ∀ c ∈ cs.takeWhile (!isBracket ·), isBracket c = false := fun c hc => by
      simpa using List.mem_takeWhile_imp hc
    unfold word? at h
    cases hb : cs.takeWhile (!isBracket ·) with
    | nil => simp [hb] at h
    | cons b bs =>
      rw [hb] at hbase hcut h
      have hname : IsName (b :: bs) := ⟨List.cons_ne_nil _ _, hbase⟩
      cases hd : cs.dropWhile (!isBracket ·) with
      | nil =>
        simp only [hd, Option.some.injEq] at h
        rw [hd, List.append_nil] at hcut
        exact ⟨(b :: bs, none), ⟨hname, nofun⟩, hcut.symm, h.symm⟩
      | cons r rs =>
        simp only [hd, Option.map_eq_some_iff] at h
        obtain ⟨endings, hes, ht⟩ := h
        obtain ⟨hendings, hrest⟩ := endings?_eq_some hes
        rw [hd, hrest] at hcut
        refine ⟨(b :: bs, some endings), ⟨hname, ?_⟩, hcut.symm, ht.symm⟩
        rintro _ ⟨⟩
        exact hendings
  · rintro ⟨⟨base, endings⟩, ⟨hbase, hendings⟩, rfl, rfl⟩
    cases endings with
    | none => exact word?_word hbase negated
    | some endings =>
      obtain ⟨hne, hall⟩ := hendings endings rfl
      exact word?_expansion hbase hne hall negated

/-- The small readers read a word and its endings as `word?` does. -/
theorem word?_eq_whole (cs : List Char) (negated : Bool) :
    word? cs negated = (Reader.whole wordReader cs).map (ofParts negated) := by
  ext t
  rw [word?_eq_some, Option.map_eq_some_iff]
  constructor
  · rintro ⟨parts, hparts, he, rfl⟩
    exact ⟨parts, whole_wordReader_eq_some.2 ⟨hparts, he⟩, rfl⟩
  · rintro ⟨parts, hwhole, rfl⟩
    obtain ⟨hparts, he⟩ := whole_wordReader_eq_some.1 hwhole
    exact ⟨parts, hparts, he, rfl⟩

/-! ## Indices -/

theorem index?_eq_some {digits : List Char} {k : Nat} :
    index? digits = some k ↔
      digits ≠ [] ∧ (∀ c ∈ digits, c.isDigit = true) ∧ Nat.ofDigitChars 10 digits 0 < 2 ^ 64 ∧
        Nat.ofDigitChars 10 digits 0 = k := by
  unfold index?
  simp only [List.all_eq_true]
  split
  · rename_i h
    rw [Option.some.injEq]
    exact ⟨fun he => ⟨h.1, h.2.1, h.2.2, he⟩, fun he => he.2.2.2⟩
  · rename_i h
    exact ⟨nofun, fun he => absurd ⟨he.1, he.2.1, he.2.2.1⟩ h⟩

/-- The small readers read an index as `index?` does. -/
theorem index?_eq_whole (digits : List Char) :
    index? digits = Reader.whole indexReader ('#' :: digits) := by
  have hread : indexReader ('#' :: digits) = (Reader.run Char.isDigit digits).bind fun p =>
      if Nat.ofDigitChars 10 p.1 0 < 2 ^ 64 then some (Nat.ofDigitChars 10 p.1 0, p.2)
      else none := rfl
  ext k
  rw [index?_eq_some, Reader.whole_eq_some, hread]
  constructor
  · rintro ⟨hne, hall, hlt, hk⟩
    have hrun := Reader.run_append hne hall (r := []) nofun
    rw [List.append_nil] at hrun
    rw [hrun, Option.bind_some, if_pos hlt, hk]
  · intro h
    obtain ⟨⟨ds, rest⟩, hrun, hif⟩ := Option.bind_eq_some_iff.1 h
    obtain ⟨rfl, hne, hall⟩ := Reader.run_eq_some hrun
    split at hif
    · rename_i hlt
      cases hif
      rw [List.append_nil]
      exact ⟨hne, hall, hlt, rfl⟩
    · cases hif

/-! ## Whole tokens -/

theorem parseBody_eq_ofBody (raw : List Char) (negated : Bool) (body : List Char) :
    parseBody raw negated body = ofBody raw negated body := by
  unfold parseBody
  split
  · rename_i digits
    have hindex := index?_eq_whole digits
    cases h : Reader.whole indexReader ('#' :: digits) <;> simp only [ofBody, hindex, h]
  · rw [ofBody]
  · rename_i c cs
    have hword := word?_eq_whole (c :: cs) negated
    cases h : Reader.whole wordReader (c :: cs) <;> simp only [ofBody, hword, h, Option.map]
  · rw [ofBody] <;> assumption

/-- **The small readers together recognise tokens as `ofChars` does.** -/
theorem parse_eq_ofChars (raw : List Char) : parse raw = ofChars raw := by
  unfold parse
  split
  · rw [parseBody_eq_ofBody, ofChars]
  · rw [parseBody_eq_ofBody, ofChars]
    assumption

/-- What follows the sign of a token that is recognised. -/
theorem writtenAs_of_ofBody {raw body : List Char} {negated : Bool} {t : Token}
    (h : ofBody raw negated body = .ok t) : t.WrittenAs (sign negated ++ body) := by
  unfold ofBody at h
  split at h
  · split at h
    · rename_i k hk
      cases h
      obtain ⟨hne, hall, hlt, rfl⟩ := index?_eq_some.1 hk
      exact .group negated hne hall hlt
    · cases h
  · split at h
    · cases h
    · rename_i hn
      cases h
      rw [Bool.not_eq_true] at hn
      rw [hn]
      exact .bar _
  · split at h
    · rename_i token hw
      cases h
      obtain ⟨⟨base, endings⟩, ⟨hbase, hendings⟩, he, rfl⟩ := word?_eq_some.1 hw
      rw [he]
      cases endings with
      | none => exact .word negated hbase
      | some endings =>
        have hwritten := WrittenAs.expansion negated hbase (hendings endings rfl)
        rw [List.append_assoc, List.append_assoc, List.cons_append] at hwritten
        exact hwritten
    · cases h
  · cases h

/-- **The texts that are accepted are those that write a token.** -/
theorem ofChars_eq_ok_iff {raw : List Char} {t : Token} :
    ofChars raw = .ok t ↔ t.WrittenAs raw := by
  constructor
  · intro h
    unfold ofChars at h
    split at h
    · exact writtenAs_of_ofBody h
    · exact writtenAs_of_ofBody h
  · intro h
    cases h with
    | bar rest => rfl
    | group negated hne hall hlt =>
      rw [ofChars_sign negated (by decide), ofBody, index?_eq_some.2 ⟨hne, hall, hlt, rfl⟩]
    | word negated hw => exact ofChars_render (t := .word _ negated) hw
    | expansion negated hbase hendings =>
      exact ofChars_render (t := .expansion _ _ negated) ⟨hbase, hendings.1, hendings.2⟩

theorem ofBody_eq_error {raw body : List Char} {negated : Bool} {e : TextError}
    (h : ofBody raw negated body = .error e) : e = bodyFault raw body := by
  unfold ofBody at h
  split at h
  · split at h
    · cases h
    · cases h
      rfl
  · split at h
    · cases h
      rfl
    · cases h
  · split at h
    · cases h
    · cases h
      rfl
  · cases h
    rw [bodyFault] <;> assumption

theorem ofChars_eq_error {raw : List Char} {e : TextError} (h : ofChars raw = .error e) :
    e = fault raw := by
  unfold ofChars at h
  split at h
  · rw [ofBody_eq_error h, fault]
  · rw [ofBody_eq_error h, fault]
    assumption

/-- **Tokens are recognised by their grammar, and nothing of a word is lost.** Each text writes at
most one token, which is the one that is found; the text of a word, with endings or without, is the
word in rule syntax. A text that writes no token is refused with the fault that its start tells. -/
theorem ofChars_accepts (raw : List Char) :
    parse raw = ofChars raw ∧ (∀ t, ofChars raw = .ok t ↔ t.WrittenAs raw) ∧
      (∀ w negated, ofChars raw = .ok (.word w negated) → (word w negated).render = raw) ∧
      (∀ base endings negated, ofChars raw = .ok (.expansion base endings negated) →
        (expansion base endings negated).render = raw) ∧
      ∀ e, ofChars raw = .error e ↔ (∀ t : Token, ¬t.WrittenAs raw) ∧ e = fault raw := by
  refine ⟨parse_eq_ofChars raw, fun t => ofChars_eq_ok_iff, fun w negated h => ?_,
    fun base endings negated h => ?_, fun e => ⟨fun h => ⟨fun t ht => ?_, ofChars_eq_error h⟩, ?_⟩⟩
  · cases ofChars_eq_ok_iff.1 h
    rfl
  · cases ofChars_eq_ok_iff.1 h
    rfl
  · rw [ofChars_eq_ok_iff.2 ht] at h
    cases h
  · rintro ⟨hno, rfl⟩
    cases h : ofChars raw with
    | error e => rw [ofChars_eq_error h]
    | ok t => exact absurd (ofChars_eq_ok_iff.1 h) (hno t)

end Token
end WordLogic
