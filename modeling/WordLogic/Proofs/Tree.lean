import WordLogic.Sentence
import WordLogic.Token

/-!
# Rule trees

A rule text without references is a tree: a body is a row of items, an item is a leaf, several
members with bars between them, or a word with endings, and a leaf is a word or a body in
parentheses. This module has the trees, their texts (`Body.render`) and what they say about a
sentence (`Body.holds`).

The items of a body are gathered into conjuncts, from left to right, and all conjuncts must hold.
Members with bars between them, and a word with endings that is not negated, go into a run: the run
before them if the conjunct before them is one, else a new run. A single leaf is a conjunct of its
own, but it goes into a run before it whose last member is a nested body: such a run is open. The
words of a negated word with endings are conjuncts of their own.
-/

namespace WordLogic.Tree

/-! ## Trees -/

/-- The character can stand in a word: it is no blank, no parenthesis and no bracket. -/
def IsWordChar (c : Char) : Prop :=
  Text.isBlank c = false ∧ c ≠ '(' ∧ c ≠ ')' ∧ Token.isBracket c = false

instance : DecidablePred IsWordChar := fun _ => inferInstanceAs (Decidable (_ ∧ _))

/-- A word as it stands in a text. -/
structure Word where
  chars : List Char
  ne_nil : chars ≠ []
  isWordChar : ∀ c ∈ chars, IsWordChar c

/-- An ending is a word without the mark that separates endings. -/
structure Ending extends Word where
  slash_notMem : '/' ∉ chars

/-- A word with one ending or more. -/
structure Expansion where
  base : Word
  first : Ending
  others : List Ending

mutual

/-- A word or a nested body, possibly negated. -/
inductive Leaf
  | word (w : Word) (negated : Bool)
  | nested (body : Body) (negated : Bool)

/-- A member of a run. -/
inductive Member
  | leaf (l : Leaf)
  | expansion (e : Expansion)

/-- One member or more. -/
inductive Members
  | one (m : Member)
  | more (m : Member) (ms : Members)

/-- What stands between the spaces of a body; a run has two members or more. -/
inductive Item
  | single (l : Leaf)
  | run (m : Member) (ms : Members)
  | expansion (e : Expansion)
  | negatedExpansion (e : Expansion)

/-- One item or more. -/
inductive Body
  | one (i : Item)
  | more (i : Item) (b : Body)

end

namespace Expansion

/-- The endings in the order in which they are written. -/
def endings (e : Expansion) : List (List Char) := e.first.chars :: e.others.map (·.chars)

/-- The word, and the word with each ending. -/
def words (e : Expansion) : List (List Char) :=
  e.base.chars :: e.endings.map (e.base.chars ++ ·)

/-- The token that is written for the word with its endings. -/
def token (e : Expansion) (negated : Bool) : Token := .expansion e.base.chars e.endings negated

end Expansion

/-! ## Texts -/

mutual

/-- The text of a leaf: a nested body stands in parentheses. -/
def Leaf.render : Leaf → List Char
  | .word w negated => (Token.word w.chars negated).render
  | .nested b negated => Token.sign negated ++ '(' :: b.render ++ [')']

/-- The text of a member. -/
def Member.render : Member → List Char
  | .leaf l => l.render
  | .expansion e => (e.token false).render

/-- The text of members, with bars between them. -/
def Members.render : Members → List Char
  | .one m => m.render
  | .more m ms => m.render ++ ' ' :: '|' :: ' ' :: ms.render

/-- The text of an item. -/
def Item.render : Item → List Char
  | .single l => l.render
  | .run m ms => m.render ++ ' ' :: '|' :: ' ' :: ms.render
  | .expansion e => (e.token false).render
  | .negatedExpansion e => (e.token true).render

/-- The text of a body, with one space between items. -/
def Body.render : Body → List Char
  | .one i => i.render
  | .more i b => i.render ++ ' ' :: b.render

end

/-! ## Meaning -/

/-- What a leaf comes to for a sentence, and whether the leaf is a nested body. -/
structure Part where
  holds : Bool
  isNested : Bool
deriving Repr, DecidableEq

/-- A demand of a body. -/
inductive Conjunct
  | single (part : Part)
  | run (parts : List Part)
deriving Repr, DecidableEq

namespace Conjunct

/-- A run holds when one of its members does. -/
def holds : Conjunct → Bool
  | .single part => part.holds
  | .run parts => parts.any (·.holds)

/-- A run whose last member is a nested body takes in a single leaf. -/
def isOpen : Conjunct → Bool
  | .single _ => false
  | .run parts => parts.getLast?.any (·.isNested)

/-! A row of conjuncts is given with the last one first. -/

/-- The last conjunct is an open run. -/
def endsOpen (cs : List Conjunct) : Bool := cs.head?.any isOpen

/-- Members go into the run at the end, or into a new one. -/
def joinRun (parts : List Part) : List Conjunct → List Conjunct
  | .run before :: cs => .run (before ++ parts) :: cs
  | cs => .run parts :: cs

/-- A single leaf goes into an open run at the end, or stands for itself. -/
def joinLeaf (part : Part) (cs : List Conjunct) : List Conjunct :=
  if endsOpen cs then joinRun [part] cs else .single part :: cs

end Conjunct

open Conjunct

/-- What a word comes to. Case does not matter, as a sentence has its words in uppercase. -/
def wordPart (s : Sentence) (negated : Bool) (w : List Char) : Part :=
  ⟨s.contains (Text.uppercase (String.ofList w)) != negated, false⟩

/-- What the word and the word with each ending come to. -/
def Expansion.parts (s : Sentence) (e : Expansion) (negated : Bool) : List Part :=
  e.words.map (wordPart s negated)

mutual

/-- What a leaf comes to. -/
def Leaf.part (s : Sentence) : Leaf → Part
  | .word w negated => wordPart s negated w.chars
  | .nested b negated => ⟨(b.conjuncts s []).all Conjunct.holds != negated, true⟩

/-- What the alternatives of a member come to. -/
def Member.parts (s : Sentence) : Member → List Part
  | .leaf l => [l.part s]
  | .expansion e => e.parts s false

/-- What the alternatives of members come to. -/
def Members.parts (s : Sentence) : Members → List Part
  | .one m => m.parts s
  | .more m ms => m.parts s ++ ms.parts s

/-- The conjuncts after an item, from those before it. -/
def Item.conjuncts (s : Sentence) (cs : List Conjunct) : Item → List Conjunct
  | .single l => joinLeaf (l.part s) cs
  | .run m ms => joinRun (m.parts s ++ ms.parts s) cs
  | .expansion e => joinRun (e.parts s false) cs
  | .negatedExpansion e => ((e.parts s true).map .single).reverse ++ cs

/-- The conjuncts after a body, from those before it. -/
def Body.conjuncts (s : Sentence) (cs : List Conjunct) : Body → List Conjunct
  | .one i => i.conjuncts s cs
  | .more i b => b.conjuncts s (i.conjuncts s cs)

end

/-- The body holds for the sentence: all its conjuncts do. -/
def Body.holds (b : Body) (s : Sentence) : Bool := (b.conjuncts s []).all Conjunct.holds

end WordLogic.Tree
