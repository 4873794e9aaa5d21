import WordLogic.Directory
import WordLogic.RuleSet.Source

/-!
# Workspaces

A workspace is where rule sets are made and used: rules that wait to be built into a set, the
current set, a blob, and a directory of files. A `Command` changes it and is answered by a `Reply`,
or by an error, which leaves the current set and the blob alone.
-/

namespace WordLogic

/-- Rules that wait, the current set, a blob, and files. -/
structure Workspace where
  waiting : List Rule
  current : RuleSet
  blob : List UInt8
  files : Directory

/-- Something to do in a workspace. -/
inductive Command
  /-- Lets a rule wait. -/
  | add (rule : Rule)
  /-- Builds a set of the rules that wait; none waits after that, even if they make no set. -/
  | build
  /-- Makes a set of the text of a rule file. -/
  | source (text : String)
  | judge (sentence : String)
  | report (sentence : String)
  | lookup (rule : Int32)
  | summary
  | size
  /-- Stores the current set in the blob, with a source if one is given. -/
  | store (source : Option String)
  | setBlob (bytes : List UInt8)
  | appendBlob (bytes : List UInt8)
  /-- Keeps only so many bytes of the blob. -/
  | truncateBlob (length : Nat)
  /-- Flips the bits of a mask in one byte of the blob. -/
  | flipByte (index : Nat) (mask : UInt8)
  /-- Takes the set from the blob, which must have been stored with the source if one is given. -/
  | restore (source : Option String)
  | putFile (name : String) (bytes : List UInt8)
  | getFile (name : String)
  /-- Makes a set of a rule file. -/
  | sourceFile (name : String)
  /-- Takes the set from a file that holds a blob. -/
  | restoreFile (name : String)
  /-- Stores the current set in a file. -/
  | storeFile (name : String) (source : Option String)
deriving Repr, DecidableEq

/-- The answer to a command. -/
inductive Reply
  | done
  /-- The current set. -/
  | current (rules : RuleSet)
  | verdict (verdict : Option Verdict)
  | report (report : Report)
  | entry (entry : Option Entry)
  | size (size : Nat) (isEmpty : Bool)
  | bytes (bytes : List UInt8)
  | length (length : Nat)
  | byte (byte : UInt8)
deriving DecidableEq

namespace Workspace

/-- Nothing is there yet. -/
def empty : Workspace := ⟨[], RuleSet.empty, [], Directory.empty⟩

/-- A workspace after a command, with the answer and what was noted on the way. -/
abbrev Answer := Workspace × Logged (Except Error Reply)

/-- A command that notes nothing. -/
def quietly (w : Workspace) (r : Except Error Reply) : Answer := (w, ⟨r, []⟩)

/-- Makes a set the current one, if there is one. -/
def adopt (w : Workspace) (r : Logged (Except Error RuleSet)) : Answer :=
  match r.value with
  | .ok rs => ({ w with current := rs }, ⟨.ok (.current rs), r.log⟩)
  | .error e => (w, ⟨.error e, r.log⟩)

/-- Replaces the blob and answers with its length. -/
def replaceBlob (w : Workspace) (bytes : List UInt8) : Answer :=
  quietly { w with blob := bytes } (.ok (.length bytes.length))

/-- Writes a file. -/
def write (w : Workspace) (name : String) (bytes : List UInt8) : Answer :=
  match w.files.write name bytes with
  | .ok files => quietly { w with files } (.ok .done)
  | .error e => quietly w (.error (.file e))

/-- The set of a blob, which must have been stored with the source if one is given. -/
def restored (bytes : List UInt8) (source : Option String) : Except Error RuleSet :=
  match source with
  | none => (Blob.decode bytes).mapError .blob
  | some text => (Blob.decodeForSource bytes text).mapError .blob

/-- The verdict of the current set on a sentence. -/
def judge (w : Workspace) (sentence : String) : Logged (Except Error Reply) :=
  match w.current.verdict (Sentence.ofText sentence) with
  | .ok ⟨v, log⟩ => ⟨.ok (.verdict v), log⟩
  | .error f => ⟨.error (.fault f), []⟩

/-- The report of the current set on a sentence. -/
def report (w : Workspace) (sentence : String) : Logged (Except Error Reply) :=
  match w.current.report (Sentence.ofText sentence) with
  | .ok ⟨r, log⟩ => ⟨.ok (.report r), log⟩
  | .error f => ⟨.error (.fault f), []⟩

/-- Flips bits in one byte of the blob. -/
def flipByte (w : Workspace) (index : Nat) (mask : UInt8) : Answer :=
  match w.blob[index]? with
  | none => quietly w (.error (.noSuchByte index))
  | some b => quietly { w with blob := w.blob.set index (b ^^^ mask) } (.ok (.byte (b ^^^ mask)))

/-- Carries a command out. -/
def run (w : Workspace) : Command → Answer
  | .add rule => quietly { w with waiting := w.waiting ++ [rule] } (.ok .done)
  | .build =>
    let built := RuleSet.build w.waiting
    adopt { w with waiting := [] } ⟨built.value.mapError .build, built.log⟩
  | .source text => adopt w (RuleSet.ofSource text)
  | .judge sentence => (w, w.judge sentence)
  | .report sentence => (w, w.report sentence)
  | .lookup id => quietly w (.ok (.entry (w.current.find? id)))
  | .summary => quietly w (.ok (.current w.current))
  | .size => quietly w (.ok (.size w.current.size w.current.isEmpty))
  | .store source =>
    match Blob.encode w.current source with
    | .ok bytes => quietly { w with blob := bytes } (.ok (.bytes bytes))
    | .error e => quietly w (.error (.blob e))
  | .setBlob bytes => replaceBlob w bytes
  | .appendBlob bytes => replaceBlob w (w.blob ++ bytes)
  | .truncateBlob length => replaceBlob w (w.blob.take length)
  | .flipByte index mask => flipByte w index mask
  | .restore source => adopt w ⟨restored w.blob source, []⟩
  | .putFile name bytes => write w name bytes
  | .getFile name => quietly w (((w.files.read name).mapError .file).map .bytes)
  | .sourceFile name =>
    match w.files.readText name with
    | .ok text => adopt w (RuleSet.ofSource text)
    | .error e => quietly w (.error (.file e))
  | .restoreFile name =>
    match w.files.read name with
    | .ok bytes => adopt w ⟨restored bytes none, []⟩
    | .error e => quietly w (.error (.file e))
  | .storeFile name source =>
    match Blob.encode w.current source with
    | .ok bytes => write w name bytes
    | .error e => quietly w (.error (.blob e))

/-- Carries commands out one after the other. -/
def runAll (w : Workspace) : List Command → List (Logged (Except Error Reply))
  | [] => []
  | c :: cs =>
    let (w, answer) := w.run c
    answer :: w.runAll cs

end Workspace

end WordLogic
