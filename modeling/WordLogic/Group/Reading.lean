import WordLogic.Group
import WordLogic.Text.Blank
import WordLogic.Token

/-!
# Reading a group

`Group.ofChars` reads a group from a text without parentheses. The tokens are taken from left to
right, and a pending connective, `and` at first, is the one that the next literal receives. A bar
sets it to `or` and makes an alternative of the literal before the bar too, a word sets it back to
`and`, and a reference leaves it, so that `#0 | #1 &a` is one run of three. The literals of a word
with endings ignore it: they are alternatives of each other, or when negated demands of their own.
-/

namespace WordLogic.Group

/-- What has been read of a group: its literals, the last one first, and the connective of the next
one. -/
structure Reading where
  literals : List Literal
  pending : Connective
deriving Repr, DecidableEq

namespace Reading

/-- Nothing has been read. -/
def start : Reading := ⟨[], .and⟩

/-- A bar: the literal before it and the literal after it are alternatives. -/
def bar (r : Reading) : Reading :=
  match r.literals with
  | [] => ⟨[], .or⟩
  | l :: ls => ⟨{ l with connective := .or } :: ls, .or⟩

/-- The literals of a word with its endings, in the order in which they are written. -/
def expansion (base : List Char) (endings : List (List Char)) (negated : Bool) : List Literal :=
  let connective := if negated then .and else .or
  (base :: endings.map (base ++ ·)).map fun w => .word connective (String.ofList w) negated

/-- Takes a token in. -/
def push (r : Reading) : Token → Reading
  | .bar => r.bar
  | .group k negated => ⟨.group r.pending k negated :: r.literals, r.pending⟩
  | .word w negated => ⟨.word r.pending (String.ofList w) negated :: r.literals, .and⟩
  | .expansion base endings negated =>
    ⟨(expansion base endings negated).reverse ++ r.literals, .and⟩

/-- Recognises a token and takes it in. A reference must name one of the first `available`
groups. -/
def next (available : Nat) (r : Reading) (raw : List Char) : Except TextError Reading :=
  match Token.ofChars raw with
  | .error e => .error e
  | .ok (.group k negated) =>
    if k < available then .ok (r.push (.group k negated))
    else .error (.badReference (String.ofList raw))
  | .ok token => .ok (r.push token)

end Reading

/-- The group that a text describes when `available` groups can be referred to. Blanks at the ends
of the text do not count; every other space separates two tokens. -/
def ofChars (available : Nat) (text : List Char) : Except TextError Group :=
  match (Text.segments ' ' (Text.trim text)).foldlM (Reading.next available) Reading.start with
  | .error e => .error e
  | .ok r => if r.literals = [] then .error .noLiteral else .ok ⟨r.literals.reverse⟩

end WordLogic.Group
